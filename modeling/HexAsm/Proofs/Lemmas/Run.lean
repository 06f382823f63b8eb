import HexAsm.Command.Run
import HexAsm.Proofs.Lemmas.Pass
import HexAsm.Proofs.Lemmas.Store

/-!
# Runs of a request

What a request writes in a given state of the files. Its run ends with code 0 after writing it, or with code 1 and
the files as they were.
-/

namespace HexAsm.Request

/-! ## What is written -/

/-- Every line or entry of the input is converted. -/
def Convertible (r : Request) (text : String) : Prop :=
  match r.task with
  | .assemble => ∀ item ∈ sourceItems text, ∃ x, convertLine item = .ok x
  | .disassemble => ∀ item ∈ imageItems text, ∃ x, convertEntry item = .ok x

theorem ok_convert (r : Request) (settings : Settings) (text : String) :
    (r.convert settings text).ok = true ↔ r.Convertible text := by
  unfold convert Convertible
  cases r.task with
  | assemble => exact Pass.ok_run_iff
  | disassemble => exact Pass.ok_run_iff

theorem source_eq_join (ls : List Listing) : Listing.source ls = String.join (ls.map fun l => l.text ++ "\n") := by
  rw [← String.toList_inj, String.toList_join]
  simp [Listing.source, Text.unlines, List.flatMap_map]

/-- The text that is due. An image has its header unless the settings or the command line leave it out, and of the
listings of an image each text has a line. -/
def expected (r : Request) (given : Settings) (text : String) : String :=
  match r.task with
  | .assemble => Image.render (assemble {} text).report.output (given.header && !r.noHeader)
  | .disassemble => String.join ((disassemble {} text).report.output.map fun l => l.text ++ "\n")

/-- Of the settings, only the header shows in what is written. -/
theorem Convertible.content_convert {r : Request} {text : String} (h : r.Convertible text) (given : Settings) :
    (r.convert (r.override given) text).content = r.expected given text := by
  unfold Convertible at h
  unfold convert expected
  cases ht : r.task with
  | assemble =>
      rw [ht] at h
      simp only [Result.ofPass, assemble, override, Pass.run_eq_of_ok h _ ({} : Settings).keepGoing]
  | disassemble =>
      rw [ht] at h
      simp only [Result.ofPass, disassemble, override, Pass.run_eq_of_ok h _ ({} : Settings).keepGoing, source_eq_join]

/-! ## Reading and writing -/

section

variable {σ π : Type} (files : Files (StateM σ))

/-- The settings before the switches: the defaults, or those of the settings file if it is read and parses. -/
def given? (r : Request) (s : σ) : Option Settings :=
  match r.settingsFile with
  | none => some {}
  | some name => (files.text? name s).bind fun text => (Settings.ofText text).toOption

/-- The text that the run tries to write. -/
def pending? (r : Request) (s : σ) : Option String := do
  let given ← r.given? files s
  let text ← files.text? r.input s
  let result := r.convert (r.override given) text
  if result.ok then some result.content else none

theorem pending?_eq_some {r : Request} {s : σ} {content : String} :
    r.pending? files s = some content ↔
      ∃ given text, r.given? files s = some given ∧ files.text? r.input s = some text ∧ r.Convertible text ∧
        content = r.expected given text := by
  simp only [pending?, Option.bind_eq_bind, Option.bind_eq_some_iff, Option.ite_none_right_eq_some, ok_convert,
    Option.some.injEq]
  constructor
  · rintro ⟨given, hg, text, ht, hc, rfl⟩
    exact ⟨given, text, hg, ht, hc, hc.content_convert given⟩
  · rintro ⟨given, text, hg, ht, hc, rfl⟩
    exact ⟨given, hg, text, ht, hc, hc.content_convert given⟩

/-- The text that the run writes. -/
def written? (r : Request) (s : σ) : Option String :=
  (r.pending? files s).filter fun text => files.accepts r.output text s

theorem written?_eq_some {r : Request} {s : σ} {output : String} :
    r.written? files s = some output ↔
      ∃ given text, r.given? files s = some given ∧ files.text? r.input s = some text ∧ r.Convertible text ∧
        output = r.expected given text ∧ files.accepts r.output output s = true := by
  rw [written?, Option.filter_eq_some_iff, pending?_eq_some]
  constructor
  · rintro ⟨⟨given, text, hg, ht, hc, ho⟩, ha⟩
    exact ⟨given, text, hg, ht, hc, ho, ha⟩
  · rintro ⟨given, text, hg, ht, hc, ho, ha⟩
    exact ⟨⟨given, text, hg, ht, hc, ho⟩, ha⟩

/-! ## The end of a run -/

variable {files} {place : σ → String → Option π} {content : σ → π → Option ByteArray} {r : Request} {s : σ}

theorem run_bind_of_run {α β : Type} {x : StateM σ α} {f : α → StateM σ β} {a : α} {s' : σ} (h : x.run s = (a, s')) :
    (x >>= f).run s = (f a).run s' := by
  rw [StateT.run_bind, h]
  rfl

theorem run_read (hfiles : files.Lawful place content) (name : String) (s : σ) :
    (files.read name).run s = (files.text? name s, s) :=
  Prod.ext rfl (hfiles.read_state name s)

theorem run_loadSettings (hfiles : files.Lawful place content) :
    (∃ given, r.given? files s = some given ∧ (r.loadSettings files).run s = (.ok (r.override given), s)) ∨
      r.given? files s = none ∧ ∃ context, (r.loadSettings files).run s = (.error context, s) := by
  unfold given? loadSettings
  cases r.settingsFile with
  | none => exact .inl ⟨{}, rfl, rfl⟩
  | some name =>
      simp only [run_bind_of_run (run_read hfiles name s)]
      cases files.text? name s with
      | none => exact .inr ⟨rfl, _, rfl⟩
      | some text =>
          cases hp : Settings.ofText text with
          | error e => exact .inr ⟨by simp [hp, Except.toOption], _, by simp only [hp]; rfl⟩
          | ok given => exact .inl ⟨given, by simp [hp, Except.toOption], by simp only [hp]; rfl⟩

theorem code_conclude (r : Request) (result : Result) : (r.conclude result).code = if result.ok then 0 else 1 := by
  unfold conclude
  cases r.format <;> rfl

/-- The outcome of a run that has converted its input. -/
def ending (files : Files (StateM σ)) (r : Request) (s : σ) (result : Result) : Outcome :=
  if result.ok = true ∧ files.accepts r.output result.content s = false then
    r.abort result.events ("writing " ++ r.output)
  else r.conclude result

theorem outcome_finish (result : Result) : ((r.finish files result).run s).1 = r.ending files s result := by
  have hwrite : (files.write r.output result.content).run s =
      (files.accepts r.output result.content s, files.after r.output result.content s) := rfl
  unfold finish ending
  cases hok : result.ok with
  | false =>
      simp only [Bool.false_eq_true, false_and, if_false]
      rfl
  | true =>
      simp only [if_true, true_and, run_bind_of_run hwrite]
      cases files.accepts r.output result.content s <;> rfl

theorem outcome_run (hfiles : files.Lawful place content) {given : Settings} {text : String}
    (hgiven : r.given? files s = some given) (htext : files.text? r.input s = some text) :
    ((r.run files).run s).1 = r.ending files s (r.convert (r.override given) text) := by
  obtain ⟨given', hgiven', hload⟩ | ⟨hnone, -⟩ := run_loadSettings (r := r) (s := s) hfiles
  · obtain rfl : given' = given := Option.some.inj (hgiven'.symm.trans hgiven)
    unfold run
    rw [run_bind_of_run hload]
    dsimp only
    rw [run_bind_of_run (run_read hfiles r.input s), htext]
    exact outcome_finish _
  · rw [hnone] at hgiven
    cases hgiven

theorem run_of_pending?_none (hfiles : files.Lawful place content) (h : r.pending? files s = none) :
    ∃ outcome, (r.run files).run s = (outcome, s) ∧ outcome.code = 1 := by
  unfold run
  obtain ⟨given, hgiven, hload⟩ | ⟨-, context, hload⟩ := run_loadSettings (r := r) (s := s) hfiles
  · rw [run_bind_of_run hload]
    dsimp only
    rw [run_bind_of_run (run_read hfiles r.input s)]
    cases ht : files.text? r.input s with
    | none => exact ⟨_, rfl, rfl⟩
    | some text =>
        have hok : (r.convert (r.override given) text).ok = false := by
          simpa [pending?, hgiven, ht] using h
        refine ⟨r.conclude (r.convert (r.override given) text), ?_, ?_⟩
        · simp only [finish, hok, Bool.false_eq_true, if_false]
          rfl
        · simp [code_conclude, hok]
  · rw [run_bind_of_run hload]
    exact ⟨_, rfl, rfl⟩

theorem run_of_pending?_some (hfiles : files.Lawful place content) {text : String}
    (h : r.pending? files s = some text) :
    ∃ outcome, (r.run files).run s = (outcome, files.after r.output text s) ∧
      outcome.code = if files.accepts r.output text s then 0 else 1 := by
  obtain ⟨given, input, hgiven, hinput, hc, rfl⟩ := (pending?_eq_some files).mp h
  have hok := (r.ok_convert (r.override given) input).mpr hc
  have hwrite : ∀ text, (files.write r.output text).run s =
      (files.accepts r.output text s, files.after r.output text s) := fun _ => rfl
  obtain ⟨given', hgiven', hload⟩ | ⟨hnone, -⟩ := run_loadSettings (r := r) (s := s) hfiles
  · obtain rfl : given' = given := by simpa [hgiven] using hgiven'.symm
    unfold run
    rw [run_bind_of_run hload]
    dsimp only
    rw [run_bind_of_run (run_read hfiles r.input s), hinput]
    simp only [finish, hok, if_true, hc.content_convert]
    rw [run_bind_of_run (hwrite _)]
    cases files.accepts r.output (r.expected given' input) s with
    | true => exact ⟨_, rfl, by simp [code_conclude, hok]⟩
    | false => exact ⟨_, rfl, rfl⟩
  · rw [hnone] at hgiven
    cases hgiven

theorem run_of_written?_some (hfiles : files.Lawful place content) {output : String}
    (h : r.written? files s = some output) :
    ((r.run files).run s).1.code = 0 ∧ ((r.run files).run s).2 = files.after r.output output s := by
  obtain ⟨hp, ha⟩ := Option.filter_eq_some_iff.mp h
  obtain ⟨outcome, hrun, hcode⟩ := run_of_pending?_some hfiles hp
  rw [hrun, hcode, if_pos ha]
  exact ⟨rfl, rfl⟩

theorem run_of_written?_none (hfiles : files.Lawful place content) (h : r.written? files s = none) :
    ((r.run files).run s).1.code = 1 ∧ ((r.run files).run s).2 = s := by
  cases hp : r.pending? files s with
  | none =>
      obtain ⟨outcome, hrun, hcode⟩ := run_of_pending?_none hfiles hp
      rw [hrun]
      exact ⟨hcode, rfl⟩
  | some text =>
      have ha : files.accepts r.output text s = false := by simpa [written?, hp] using h
      obtain ⟨outcome, hrun, hcode⟩ := run_of_pending?_some hfiles hp
      rw [hrun, hcode, ha]
      exact ⟨rfl, hfiles.refused _ _ _ ha⟩

theorem code_run_eq_zero (hfiles : files.Lawful place content) :
    ((r.run files).run s).1.code = 0 ↔ ∃ output, r.written? files s = some output := by
  cases hw : r.written? files s with
  | none => simp [(run_of_written?_none hfiles hw).1]
  | some output => simp [(run_of_written?_some hfiles hw).1]

end

end HexAsm.Request

namespace HexAsm

/-! ## Command lines -/

theorem runCommandLine_of_arguments {σ : Type} {files : Files (StateM σ)} {r : Request} {args : List String}
    (h : Invocation.ofArguments args = some (.run r)) : runCommandLine files args = r.run files := by
  unfold runCommandLine
  rw [h]

end HexAsm
