import HexAsm.Proofs.FirstFailure
import HexAsm.Proofs.Lemmas.Arguments
import HexAsm.Proofs.Lemmas.Run

/-!
# Command lines

A command line is a task with switches before it and behind it. Arguments are read as a request exactly if they spell a
command line, and the request is what the command line asks for: the switches that are given decide, and what they leave
open has its default. The run then has the settings that the switches leave in force.
-/

namespace HexAsm

/-- A task, the switches before it and those behind it, in the order in which they are given. -/
structure CommandLine where
  task : Task
  before : Given
  after : Given

namespace CommandLine

/-- The arguments spell the command line. Two dashes at their end say nothing. -/
structure Written (c : CommandLine) (args : List String) : Prop where
  spelled : ∃ front back stop, args = front ++ c.task.name :: (back ++ stop) ∧
    Scope.program.ArgumentsGive front c.before ∧ (Scope.task c.task).ArgumentsGive back c.after ∧
    (stop = [] ∨ stop = ["--"])
  before : c.before.Allowed
  after : c.after.Allowed

/-- The switch is given with the value. Behind the task it replaces the same switch before it. -/
def Gives (c : CommandLine) (w : Switch) (v : String) : Prop :=
  (w, v) ∈ c.after ∨ (w, v) ∈ c.before ∧ ∀ v', (w, v') ∉ c.after

/-- The switch is given. -/
def Has (c : CommandLine) (w : Switch) : Prop := ∃ v, c.Gives w v

/-- The request is what the command line asks for. -/
structure Asks (c : CommandLine) (r : Request) : Prop where
  task : r.task = c.task
  settingsFile : ∀ v, r.settingsFile = some v ↔ c.Gives .config v
  everything : r.verbosity = .everything ↔ c.Has .debug
  quiet : r.verbosity = .quiet ↔ ¬ c.Has .debug ∧ ¬ c.Has .verbose
  input : ∀ v, c.Gives .input v → r.input = v
  defaultInput : ¬ c.Has .input → r.input = "input.txt"
  output : ∀ v, c.Gives .output v → r.output = v
  defaultImage : c.task = .assemble → ¬ c.Has .output → r.output = "output.bin"
  defaultListing : c.task = .disassemble → ¬ c.Has .output → r.output = "output.asm"
  format : r.format = .json ↔ c.Gives .format "json"
  failFast : r.failFast = true ↔ c.Has .failFast
  jobs : ∀ v, c.Gives .jobs v → ∃ n, r.jobs = some n ∧ CountWritten n v
  defaultJobs : ¬ c.Has .jobs → r.jobs = none
  noHeader : r.noHeader = true ↔ c.Has .noHeader

/-- The settings are those that the switches leave in force over the given ones. -/
structure Settles (c : CommandLine) (given settings : Settings) : Prop where
  keepGoing : settings.keepGoing = true ↔ given.keepGoing = true ∧ ¬ c.Has .failFast
  header : settings.header = true ↔ given.header = true ∧ ¬ c.Has .noHeader
  jobs : ∀ v, c.Gives .jobs v → ∃ n, settings.jobs = some n ∧ CountWritten n v
  givenJobs : ¬ c.Has .jobs → settings.jobs = given.jobs

/-! ## The request of a command line -/

/-- The request that is read from a command line. The reader puts the last switch first. -/
def request (c : CommandLine) : Request := Request.ofGiven c.task c.before.reverse c.after.reverse

variable {c : CommandLine} {r r' : Request} {args : List String}

namespace Written

theorem gives_iff (h : c.Written args) {w : Switch} {v : String} :
    c.Gives w v ↔ (c.after.reverse.lookup w).or (c.before.reverse.lookup w) = some v := by
  simp only [Option.or_eq_some_iff, Option.eq_none_iff_forall_ne_some, ne_eq, Given.lookup_reverse_eq_some h.after,
    Given.lookup_reverse_eq_some h.before, and_comm]
  rfl

theorem has_iff (h : c.Written args) {w : Switch} :
    c.Has w ↔ ((c.before.reverse.lookup w).isSome || (c.after.reverse.lookup w).isSome) = true := by
  simp only [Has, gives_iff h, ← Option.isSome_iff_exists, Option.isSome_or, Bool.or_comm]

/-- A switch that may not stand before the task is given behind it. -/
theorem gives_iff_after (h : c.Written args) {w : Switch} (hw : w ∉ Scope.program.switches) {v : String} :
    c.Gives w v ↔ c.after.reverse.lookup w = some v := by
  obtain ⟨front, back, stop, -, hfront, -, -⟩ := h.spelled
  rw [Given.lookup_reverse_eq_some h.after]
  exact ⟨fun hg => hg.elim id fun hb => absurd (hfront.mem _ hb.1) hw, .inl⟩

theorem lookup_eq_none (h : c.Written args) {w : Switch} (hw : w ∉ Scope.program.switches) (hn : ¬ c.Has w) :
    c.after.reverse.lookup w = none :=
  Option.eq_none_iff_forall_ne_some.mpr fun v hv => hn ⟨v, (h.gives_iff_after hw).mpr hv⟩

theorem takes (h : c.Written args) {w : Switch} {v : String} (hg : c.Gives w v) : w.Takes v := by
  rcases hg with ha | ⟨hb, -⟩
  · exact h.after.taken _ ha
  · exact h.before.taken _ hb

theorem format_request (h : c.Written args) : c.request.format = .json ↔ c.Gives .format "json" := by
  have hw : Switch.format ∉ Scope.program.switches := by decide
  have hformat : c.request.format = ((c.after.reverse.lookup .format).bind Format.ofName?).getD .text := rfl
  rw [hformat, h.gives_iff_after hw]
  cases hv : c.after.reverse.lookup .format with
  | none => decide
  | some v =>
      rcases h.takes ((h.gives_iff_after hw).mpr hv) with rfl | rfl <;> decide

theorem verbosity_request (h : c.Written args) :
    (c.request.verbosity = .everything ↔ c.Has .debug) ∧
      (c.request.verbosity = .quiet ↔ ¬ c.Has .debug ∧ ¬ c.Has .verbose) := by
  simp only [request, Request.ofGiven, h.has_iff]
  split
  · simp [*]
  · split <;> simp [*]

/-- The request that is read is what the command line asks for. -/
theorem asks_request (h : c.Written args) : c.Asks c.request where
  task := rfl
  settingsFile v := h.gives_iff.symm
  everything := h.verbosity_request.1
  quiet := h.verbosity_request.2
  input v hv := by
    rw [h.gives_iff_after (by decide)] at hv
    simp only [request, Request.ofGiven, hv, Option.getD_some]
  defaultInput hn := by
    simp only [request, Request.ofGiven, h.lookup_eq_none (by decide) hn]
    rfl
  output v hv := by
    rw [h.gives_iff_after (by decide)] at hv
    simp only [request, Request.ofGiven, hv, Option.getD_some]
  defaultImage ht hn := by
    simp only [request, Request.ofGiven, h.lookup_eq_none (by decide) hn, ht]
    rfl
  defaultListing ht hn := by
    simp only [request, Request.ofGiven, h.lookup_eq_none (by decide) hn, ht]
    rfl
  format := h.format_request
  failFast := h.has_iff.symm
  jobs v hv := by
    obtain ⟨n, hn⟩ := h.takes hv
    rw [h.gives_iff_after (by decide)] at hv
    refine ⟨n, ?_, hn⟩
    simp only [request, Request.ofGiven, hv, Option.bind_some, jobsOfText?_eq_some.mpr hn]
  defaultJobs hn := by
    simp only [request, Request.ofGiven, h.lookup_eq_none (by decide) hn, Option.bind_none]
  noHeader := h.has_iff.symm

end Written

/-! ## The switches decide -/

section

variable {c' : CommandLine} (h : c.Asks r) (h' : c'.Asks r')

include h h'

theorem Asks.settingsFile_eq (hg : ∀ v, c'.Gives .config v ↔ c.Gives .config v) : r'.settingsFile = r.settingsFile :=
  Option.ext fun v => (h'.settingsFile v).trans ((hg v).trans (h.settingsFile v).symm)

theorem Asks.input_eq (hg : ∀ v, c'.Gives .input v ↔ c.Gives .input v) : r'.input = r.input := by
  by_cases hw : c.Has .input
  · obtain ⟨v, hv⟩ := hw
    rw [h.input v hv, h'.input v ((hg v).mpr hv)]
  · rw [h.defaultInput hw, h'.defaultInput fun hw' => hw ((exists_congr hg).mp hw')]

theorem Asks.output_eq (ht : c'.task = c.task) (hg : ∀ v, c'.Gives .output v ↔ c.Gives .output v) :
    r'.output = r.output := by
  by_cases hw : c.Has .output
  · obtain ⟨v, hv⟩ := hw
    rw [h.output v hv, h'.output v ((hg v).mpr hv)]
  · have hw' : ¬ c'.Has .output := fun hw' => hw ((exists_congr hg).mp hw')
    cases htask : c.task with
    | assemble => rw [h.defaultImage htask hw, h'.defaultImage (ht.trans htask) hw']
    | disassemble => rw [h.defaultListing htask hw, h'.defaultListing (ht.trans htask) hw']

theorem Asks.noHeader_eq (hg : ∀ v, c'.Gives .noHeader v ↔ c.Gives .noHeader v) : r'.noHeader = r.noHeader :=
  Bool.eq_iff_iff.mpr (h'.noHeader.trans ((exists_congr hg).trans h.noHeader.symm))

end

theorem Asks.verbosity_eq (h : c.Asks r) (h' : c.Asks r') : r.verbosity = r'.verbosity := by
  have heverything := h.everything.trans h'.everything.symm
  have hquiet := h.quiet.trans h'.quiet.symm
  revert heverything hquiet
  cases r.verbosity <;> cases r'.verbosity <;> simp

theorem Asks.jobs_eq (h : c.Asks r) (h' : c.Asks r') : r.jobs = r'.jobs := by
  by_cases hw : c.Has .jobs
  · obtain ⟨v, hv⟩ := hw
    obtain ⟨n, hn, hv₁⟩ := h.jobs v hv
    obtain ⟨n', hn', hv₂⟩ := h'.jobs v hv
    rw [← jobsOfText?_eq_some] at hv₁ hv₂
    rw [hn, hn', ← hv₁, ← hv₂]
  · rw [h.defaultJobs hw, h'.defaultJobs hw]

theorem Asks.format_eq (h : c.Asks r) (h' : c.Asks r') : r.format = r'.format := by
  have hjson := h.format.trans h'.format.symm
  revert hjson
  cases r.format <;> cases r'.format <;> simp

/-- A command line asks for one request. -/
theorem Asks.unique (h : c.Asks r) (h' : c.Asks r') : r = r' := by
  have htask := h.task.trans h'.task.symm
  have hsettings := h'.settingsFile_eq h fun _ => Iff.rfl
  have hverbosity := h.verbosity_eq h'
  have hinput := h'.input_eq h fun _ => Iff.rfl
  have houtput := h'.output_eq h rfl fun _ => Iff.rfl
  have hformat := h.format_eq h'
  have hfailFast : r.failFast = r'.failFast := Bool.eq_iff_iff.mpr (h.failFast.trans h'.failFast.symm)
  have hjobs := h.jobs_eq h'
  have hnoHeader := h'.noHeader_eq h fun _ => Iff.rfl
  cases r
  cases r'
  simp only at *
  subst_vars
  rfl

/-! ## Reading -/

theorem read_task (t : Task) (before given : Given) (rest : List String) :
    Invocation.read .program before given (t.name :: rest) = Invocation.read (.task t) given [] rest := by
  have hplain : Argument.ofChars .program t.name.toList = .plain := by cases t <;> rfl
  have hname : Task.ofName? t.name = some t := Task.ofName?_eq_some.mpr rfl
  rw [Invocation.read.eq_def]
  simp only [hplain, hname]

theorem read_stop {stop : List String} (h : stop = [] ∨ stop = ["--"]) (t : Task) (before given : Given) :
    Invocation.read (.task t) before given stop = some (.run (Request.ofGiven t before given)) := by
  rcases h with rfl | rfl <;> rfl

theorem Written.ofArguments_eq (h : c.Written args) : Invocation.ofArguments args = some (.run c.request) := by
  obtain ⟨⟨front, back, stop, rfl, hfront, hback, hstop⟩, hbefore, hafter⟩ := h
  have haddBefore : Given.addAll? [] c.before = some c.before.reverse :=
    (Given.addAll?_eq_some Given.allowed_nil).mpr (by simpa using hbefore.reverse)
  have haddAfter : Given.addAll? [] c.after = some c.after.reverse :=
    (Given.addAll?_eq_some Given.allowed_nil).mpr (by simpa using hafter.reverse)
  rw [Invocation.ofArguments, Invocation.read_append hfront haddBefore, read_task,
    Invocation.read_append hback haddAfter, read_stop hstop, request]

theorem exists_written (h : Invocation.ofArguments args = some (.run r)) : ∃ c : CommandLine, c.Written args := by
  obtain ⟨front, rest, before, g, rfl, hfront, hadd, hend⟩ := Invocation.exists_argumentsGive h
  cases hend with
  | @program t rest hread =>
      obtain ⟨back, stop, after, g', rfl, hback, hadd', hend⟩ := Invocation.exists_argumentsGive hread
      cases hend with
      | task hstop _ =>
          obtain ⟨-, hbefore⟩ := (Given.addAll?_eq_some Given.allowed_nil).mp hadd
          obtain ⟨-, hafter⟩ := (Given.addAll?_eq_some Given.allowed_nil).mp hadd'
          refine ⟨⟨t, before, after⟩, ⟨front, back, stop, rfl, hfront, hback, hstop⟩, ?_, ?_⟩
          · simpa using hbefore.reverse
          · simpa using hafter.reverse

theorem Written.asks (h : c.Written args) (hr : Invocation.ofArguments args = some (.run r)) : c.Asks r := by
  rw [h.ofArguments_eq] at hr
  cases hr
  exact h.asks_request

end CommandLine

/-- Arguments are read as a request exactly if they spell a command line that asks for it. -/
theorem Invocation.ofArguments_eq_run_iff {args : List String} {r : Request} :
    ofArguments args = some (.run r) ↔ ∃ c : CommandLine, c.Written args ∧ c.Asks r := by
  constructor
  · intro h
    obtain ⟨c, hc⟩ := CommandLine.exists_written h
    exact ⟨c, hc, hc.asks h⟩
  · rintro ⟨c, hc, hr⟩
    rw [hc.ofArguments_eq, hc.asks_request.unique hr]

/-! ## Runs -/

namespace CommandLine

variable {c : CommandLine} {r : Request}

theorem Asks.settles (h : c.Asks r) (given : Settings) : c.Settles given (r.override given) where
  keepGoing := by simp [Request.override, ← h.failFast]
  header := by simp [Request.override, ← h.noHeader]
  jobs v hv := by
    obtain ⟨n, hn, hv⟩ := h.jobs v hv
    exact ⟨n, by simp [Request.override, hn], hv⟩
  givenJobs hn := by simp [Request.override, h.defaultJobs hn]

theorem length_failures_run_false {α : Type} (convert : Item → Except Fault (Option α)) (items : List Item) :
    (Pass.run convert false items).report.failures.length ≤ 1 := by
  rw [(Pass.upToFailure_run convert items).failures, List.length_take]
  exact Nat.min_le_left ..

/-- A run that stops at its first failure tells no other. -/
theorem Settles.failures_le_one {given settings : Settings} (h : c.Settles given settings) (hc : c.Has .failFast)
    (r : Request) (text : String) : (r.convert settings text).failures.length ≤ 1 := by
  have hstop : settings.keepGoing = false := Bool.eq_false_iff.mpr fun hk => (h.keepGoing.mp hk).2 hc
  unfold Request.convert assemble disassemble
  rw [hstop]
  cases r.task with
  | assemble => exact length_failures_run_false ..
  | disassemble => exact length_failures_run_false ..

end CommandLine

/-- The input of a run is converted under the settings that its switches leave in force over those of its settings
file, or over the defaults. -/
theorem runCommandLine_settled {σ π : Type} {files : Files (StateM σ)} {place : σ → String → Option π}
    {content : σ → π → Option ByteArray} (hfiles : files.Lawful place content) {c : CommandLine} {args : List String}
    (hc : c.Written args) (s : σ) :
    ∃ r, c.Asks r ∧ ∀ given text, r.given? files s = some given → files.text? r.input s = some text →
      ∃ settings, c.Settles given settings ∧
        ((runCommandLine files args).run s).1 = r.ending files s (r.convert settings text) ∧
        (c.Has .failFast → (r.convert settings text).failures.length ≤ 1) := by
  refine ⟨c.request, hc.asks_request, fun given text hgiven htext => ?_⟩
  have hsettles := hc.asks_request.settles given
  refine ⟨_, hsettles, ?_, fun hfast => hsettles.failures_le_one hfast _ _⟩
  rw [runCommandLine_of_arguments hc.ofArguments_eq, Request.outcome_run hfiles hgiven htext]

end HexAsm
