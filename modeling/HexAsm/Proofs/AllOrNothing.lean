import HexAsm.Proofs.CommandLine

/-!
# All or nothing

A command line that names a task either writes its whole output and exits with code 0, or leaves every file as it was.
How the run is told, how many workers it has, and whether it stops at its first failure make no difference to that.
-/

namespace HexAsm

variable {σ π : Type} {files : Files (StateM σ)} {place : σ → String → Option π} {content : σ → π → Option ByteArray}
  {r r' : Request} {s s' : σ}

/-! ## Runs that agree -/

namespace Request

/-- Two runs have the same task on the same input, ask for the same header and can write the same. Their diagnostics,
their workers and what they do after a failure may differ, and so may the other settings in their files. -/
structure Agrees (files : Files (StateM σ)) (r : Request) (s : σ) (r' : Request) (s' : σ) : Prop where
  task : r'.task = r.task
  noHeader : r'.noHeader = r.noHeader
  header : (r'.given? files s').map (·.header) = (r.given? files s).map (·.header)
  input : files.text? r'.input s' = files.text? r.input s
  output : ∀ text, files.accepts r'.output text s' = files.accepts r.output text s

theorem Agrees.symm (h : r.Agrees files s r' s') : r'.Agrees files s' r s :=
  ⟨h.task.symm, h.noHeader.symm, h.header.symm, h.input.symm, fun text => (h.output text).symm⟩

theorem Agrees.written?_of_some (h : r.Agrees files s r' s') {output : String}
    (hw : r.written? files s = some output) : r'.written? files s' = some output := by
  obtain ⟨given, text, hgiven, htext, hc, ho, ha⟩ := (written?_eq_some files).mp hw
  obtain ⟨given', hgiven', hheader⟩ : ∃ given', r'.given? files s' = some given' ∧ given'.header = given.header := by
    have := h.header
    rw [hgiven] at this
    exact Option.map_eq_some_iff.mp this
  have hc' : r'.Convertible text := by
    unfold Convertible at hc ⊢
    rw [h.task]
    exact hc
  have hexpected : r'.expected given' text = r.expected given text := by
    unfold expected
    rw [h.task, hheader, h.noHeader]
  exact (written?_eq_some files).mpr ⟨given', text, hgiven', by rw [h.input, htext], hc', by rw [hexpected, ho],
    by rw [h.output, ha]⟩

theorem Agrees.written?_eq (h : r.Agrees files s r' s') : r'.written? files s' = r.written? files s := by
  cases hw : r.written? files s with
  | some output => exact h.written?_of_some hw
  | none =>
      cases hw' : r'.written? files s' with
      | none => rfl
      | some output =>
          rw [h.symm.written?_of_some hw'] at hw
          cases hw

/-- The requests differ at most in their diagnostics, their workers, and whether they stop at the first failure. -/
def SameWork (r r' : Request) : Prop :=
  r' = { r with verbosity := r'.verbosity, format := r'.format, failFast := r'.failFast, jobs := r'.jobs }

theorem SameWork.agrees (h : r.SameWork r') (s : σ) : r.Agrees files s r' s := by
  rw [h]
  exact ⟨rfl, rfl, rfl, rfl, fun _ => rfl⟩

theorem SameWork.output_eq (h : r.SameWork r') : r'.output = r.output := by
  rw [h]

/-! ## How runs end -/

variable (hfiles : files.Lawful place content)

include hfiles

theorem Agrees.code_run (h : r.Agrees files s r' s') :
    ((r'.run files).run s').1.code = ((r.run files).run s).1.code := by
  cases hw : r.written? files s with
  | none => rw [(run_of_written?_none hfiles hw).1, (run_of_written?_none hfiles (h.written?_eq.trans hw)).1]
  | some output => rw [(run_of_written?_some hfiles hw).1, (run_of_written?_some hfiles (h.written?_eq.trans hw)).1]

theorem SameWork.state_run (h : r.SameWork r') : ((r'.run files).run s).2 = ((r.run files).run s).2 := by
  have hw' : r'.written? files s = r.written? files s := (h.agrees s).written?_eq
  cases hw : r.written? files s with
  | none => rw [(run_of_written?_none hfiles hw).2, (run_of_written?_none hfiles (hw'.trans hw)).2]
  | some output =>
      rw [(run_of_written?_some hfiles hw).2, (run_of_written?_some hfiles (hw'.trans hw)).2, h.output_eq]

/-- What is written stands at the place of the output, and every other place keeps its content. -/
theorem content_run {output : String} (h : r.written? files s = some output) :
    ∃ p, place s r.output = some p ∧ content ((r.run files).run s).2 p = some output.toUTF8 ∧
      ∀ q, q ≠ p → content ((r.run files).run s).2 q = content s q := by
  obtain ⟨-, -, -, -, -, -, ha⟩ := (written?_eq_some files).mp h
  rw [(run_of_written?_some hfiles h).2]
  exact hfiles.written _ _ _ ha

theorem Agrees.content_run_eq (h : r.Agrees files s r' s') (hc : ((r.run files).run s).1.code = 0) {p p' : π}
    (hp : place s r.output = some p) (hp' : place s' r'.output = some p') :
    content ((r'.run files).run s').2 p' = content ((r.run files).run s).2 p := by
  obtain ⟨output, hw⟩ := (code_run_eq_zero hfiles).mp hc
  obtain ⟨q, hq, hcontent, -⟩ := content_run hfiles hw
  obtain ⟨q', hq', hcontent', -⟩ := content_run hfiles (h.written?_of_some hw)
  obtain rfl : q = p := Option.some.inj (hq.symm.trans hp)
  obtain rfl : q' = p' := Option.some.inj (hq'.symm.trans hp')
  exact hcontent'.trans hcontent.symm

end Request

/-! ## Command lines -/

/-- The command lines differ at most in the switches for diagnostics, for workers, and for the first failure. -/
structure CommandLine.SameWork (c c' : CommandLine) : Prop where
  task : c'.task = c.task
  gives : ∀ w ∈ [Switch.config, .input, .output, .noHeader], ∀ v, c'.Gives w v ↔ c.Gives w v

theorem CommandLine.SameWork.request {c c' : CommandLine} (h : c.SameWork c') (hr : c.Asks r) (hr' : c'.Asks r') :
    r.SameWork r' := by
  have htask : r'.task = r.task := by rw [hr'.task, h.task, hr.task]
  have hsettings := hr.settingsFile_eq hr' (h.gives .config (by simp))
  have hinput := hr.input_eq hr' (h.gives .input (by simp))
  have houtput := hr.output_eq hr' h.task (h.gives .output (by simp))
  have hnoHeader := hr.noHeader_eq hr' (h.gives .noHeader (by simp))
  unfold Request.SameWork
  rw [← htask, ← hsettings, ← hinput, ← houtput, ← hnoHeader]

/-- A run exits with code 0 exactly if its settings and its input are read, every item is converted, and the output is
written. Then the place of the output holds the image or the listing and no other place has changed; else nothing has.
The files and the header are those that the command line asks for. Runs that agree exit with the same code and write
the same. -/
theorem runCommandLine_all_or_nothing (hfiles : files.Lawful place content) {args : List String}
    (hargs : Invocation.ofArguments args = some (.run r)) (s : σ) :
    let final := (runCommandLine files args).run s
    (∃ c : CommandLine, c.Written args) ∧
      (∀ c : CommandLine, c.Written args → c.Asks r) ∧
      (final.1.code = 0 ↔
        ∃ given text, r.given? files s = some given ∧ files.text? r.input s = some text ∧ r.Convertible text ∧
          files.accepts r.output (r.expected given text) s = true) ∧
      (final.1.code = 0 →
        ∃ given text i p, r.given? files s = some given ∧ files.text? r.input s = some text ∧
          place s r.input = some i ∧ content s i = some text.toUTF8 ∧
          place s r.output = some p ∧ content final.2 p = some (r.expected given text).toUTF8 ∧
          ∀ q, q ≠ p → content final.2 q = content s q) ∧
      (final.1.code ≠ 0 → final.2 = s) ∧
      (∀ (args' : List String) (c c' : CommandLine), c.Written args → c'.Written args' → c.SameWork c' →
        let final' := (runCommandLine files args').run s
        final'.1.code = final.1.code ∧ final'.2 = final.2) ∧
      (∀ (args' : List String) (r' : Request), Invocation.ofArguments args' = some (.run r') → r.SameWork r' →
        let final' := (runCommandLine files args').run s
        final'.1.code = final.1.code ∧ final'.2 = final.2) ∧
      ∀ (args' : List String) (r' : Request) (s' : σ), Invocation.ofArguments args' = some (.run r') →
        r.Agrees files s r' s' →
        let final' := (runCommandLine files args').run s'
        final'.1.code = final.1.code ∧
          (final.1.code = 0 → ∀ p p', place s r.output = some p → place s' r'.output = some p' →
            content final'.2 p' = content final.2 p) := by
  intro final
  have hfinal : final = (r.run files).run s := by rw [← runCommandLine_of_arguments hargs]
  have hzero : final.1.code = 0 ↔ ∃ output, r.written? files s = some output := by
    rw [hfinal, Request.code_run_eq_zero hfiles]
  have hsame : ∀ (args' : List String) (r' : Request), Invocation.ofArguments args' = some (.run r') → r.SameWork r' →
      let final' := (runCommandLine files args').run s
      final'.1.code = final.1.code ∧ final'.2 = final.2 := by
    intro args' r' hargs' hwork final'
    have hfinal' : final' = (r'.run files).run s := by rw [← runCommandLine_of_arguments hargs']
    rw [hfinal', hfinal]
    exact ⟨(hwork.agrees s).code_run hfiles, hwork.state_run hfiles⟩
  refine ⟨CommandLine.exists_written hargs, fun c hc => hc.asks hargs, ?_, ?_, ?_, ?_, hsame, ?_⟩
  · rw [hzero]
    constructor
    · rintro ⟨output, hw⟩
      obtain ⟨given, text, hgiven, htext, hc, rfl, ha⟩ := (Request.written?_eq_some files).mp hw
      exact ⟨given, text, hgiven, htext, hc, ha⟩
    · rintro ⟨given, text, hgiven, htext, hc, ha⟩
      exact ⟨_, (Request.written?_eq_some files).mpr ⟨given, text, hgiven, htext, hc, rfl, ha⟩⟩
  · intro h
    obtain ⟨output, hw⟩ := hzero.mp h
    obtain ⟨given, text, hgiven, htext, -, rfl, -⟩ := (Request.written?_eq_some files).mp hw
    obtain ⟨i, hi, hinput⟩ := hfiles.read_text _ _ _ htext
    obtain ⟨p, hp, hcontent, hframe⟩ := Request.content_run hfiles hw
    rw [← hfinal] at hcontent hframe
    exact ⟨given, text, i, p, hgiven, htext, hi, hinput, hp, hcontent, hframe⟩
  · intro h
    cases hw : r.written? files s with
    | none => rw [hfinal, (Request.run_of_written?_none hfiles hw).2]
    | some output => exact absurd (hzero.mpr ⟨output, hw⟩) h
  · intro args' c c' hc hc' hwork
    exact hsame args' c'.request hc'.ofArguments_eq (hwork.request (hc.asks hargs) hc'.asks_request)
  · intro args' r' s' hargs' hagrees final'
    have hfinal' : final' = (r'.run files).run s' := by rw [← runCommandLine_of_arguments hargs']
    rw [hfinal', hfinal]
    exact ⟨hagrees.code_run hfiles, fun h p p' hp hp' => hagrees.content_run_eq hfiles h hp hp'⟩

/-- Without names for its files a source is assembled from `input.txt` to `output.bin`, here without the header, and an
image is disassembled to `output.asm`. A source may also be replaced by its own image, and then a settings file that
asks to stop at the first failure, and another form of report, make no difference. -/
theorem runCommandLine_default_and_in_place :
    let source := "RES ; clear\n"
    let tree : FileTree := ⟨[(["input.txt"], source.toUTF8), (["conf"], "[false, true, 4]".toUTF8)]⟩
    let image : FileTree := ⟨[(["input.txt"], "B0000000\n".toUTF8)]⟩
    let bareArgs := ["--debug", "assemble", "--no-header", "--jobs", "+2"]
    let backArgs := ["-v", "disassemble", "--input=input.txt", "--"]
    let inPlaceArgs := ["assemble", "--verbose", "--fail-fast", "-o", "./input.txt"]
    let againArgs := ["assemble", "-diinput.txt", "--config=conf", "--format", "json", "--output", "input.txt"]
    let bare := (runCommandLine FileTree.store bareArgs).run tree
    let back := (runCommandLine FileTree.store backArgs).run image
    let inPlace := (runCommandLine FileTree.store inPlaceArgs).run tree
    let again := (runCommandLine FileTree.store againArgs).run tree
    (bare.1.code = 0 ∧ bare.2.get? ["output.bin"] = some "B0000000\n".toUTF8 ∧
        bare.2.get? ["input.txt"] = some source.toUTF8 ∧
        ∃ c : CommandLine, c.Written bareArgs ∧ c.Has .noHeader ∧ c.Has .jobs ∧ ¬ c.Has .failFast) ∧
      (back.1.code = 0 ∧ back.2.get? ["output.asm"] = some "RES\n".toUTF8) ∧
      inPlace.1.code = 0 ∧ inPlace.2.get? ["input.txt"] = some "v2.0 raw\n# nibble-asm image\nB0000000\n".toUTF8 ∧
        inPlace.2.get? ["conf"] = some "[false, true, 4]".toUTF8 ∧
        again.1.code = 0 ∧ again.2.get? ["input.txt"] = inPlace.2.get? ["input.txt"] := by
  intro source tree image bareArgs backArgs inPlaceArgs againArgs bare back inPlace again
  let bareRequest : Request := ⟨.assemble, none, .everything, "input.txt", "output.bin", .text, false, some 2, true⟩
  let backRequest : Request := ⟨.disassemble, none, .summary, "input.txt", "output.asm", .text, false, none, false⟩
  let inPlaceRequest : Request := ⟨.assemble, none, .summary, "input.txt", "./input.txt", .text, true, none, false⟩
  let againRequest : Request :=
    ⟨.assemble, some "conf", .everything, "input.txt", "input.txt", .json, false, none, false⟩
  -- a run that can write its output does, and leaves the other files alone
  have hruns : ∀ (args : List String) (r : Request) (t : FileTree) (given : Settings) (text output : String) (p : Path),
      Invocation.ofArguments args = some (.run r) → r.given? FileTree.store t = some given →
      FileTree.store.text? r.input t = some text → r.Convertible text → r.expected given text = output →
      FileTree.store.accepts r.output output t = true → t.locate r.output = some p →
      let final := (runCommandLine FileTree.store args).run t
      final.1.code = 0 ∧ final.2.get? p = some output.toUTF8 ∧ ∀ q, q ≠ p → final.2.get? q = t.get? q := by
    rintro args r t given text output p hargs hgiven htext hc rfl haccepts hp final
    obtain ⟨-, -, hcode, hwritten, -⟩ := runCommandLine_all_or_nothing FileTree.lawful_store hargs t
    have hzero : final.1.code = 0 := hcode.mpr ⟨given, text, hgiven, htext, hc, haccepts⟩
    obtain ⟨given', text', i, p', hgiven', htext', -, -, hp', hcontent, hframe⟩ := hwritten hzero
    obtain rfl : given = given' := Option.some.inj (hgiven.symm.trans hgiven')
    obtain rfl : text = text' := Option.some.inj (htext.symm.trans htext')
    obtain rfl : p = p' := Option.some.inj (hp.symm.trans hp')
    exact ⟨hzero, hcontent, hframe⟩
  have htext : FileTree.store.text? "input.txt" tree = some source := by decide
  have hplace : tree.locate "./input.txt" = some ["input.txt"] := by decide
  have hplace' : tree.locate "input.txt" = some ["input.txt"] := by decide
  have hbareArgs : Invocation.ofArguments bareArgs = some (.run bareRequest) := by decide
  have hbackArgs : Invocation.ofArguments backArgs = some (.run backRequest) := by decide
  have hinPlaceArgs : Invocation.ofArguments inPlaceArgs = some (.run inPlaceRequest) := by decide
  have hagainArgs : Invocation.ofArguments againArgs = some (.run againRequest) := by decide
  obtain ⟨hbare, hbin, hinput⟩ := hruns _ bareRequest tree {} source "B0000000\n" ["output.bin"] hbareArgs rfl htext
    ((bareRequest.ok_convert {} _).mp (by decide)) (by decide) (by decide) (by decide)
  obtain ⟨hback, hasm, -⟩ := hruns _ backRequest image {} "B0000000\n" "RES\n" ["output.asm"] hbackArgs rfl (by decide)
    ((backRequest.ok_convert {} _).mp (by decide)) (by decide) (by decide) (by decide)
  obtain ⟨hinPlace, himage, hconf⟩ := hruns _ inPlaceRequest tree {} source
    "v2.0 raw\n# nibble-asm image\nB0000000\n" ["input.txt"] hinPlaceArgs rfl htext
    ((inPlaceRequest.ok_convert {} _).mp (by decide)) (by decide) (by decide) hplace
  have hagrees : inPlaceRequest.Agrees FileTree.store tree againRequest tree := by
    refine ⟨rfl, rfl, by decide, rfl, fun text => ?_⟩
    simp only [FileTree.accepts_store, FileTree.write?, inPlaceRequest, againRequest, hplace, hplace']
  obtain ⟨⟨c, hc⟩, hasks, -⟩ := runCommandLine_all_or_nothing FileTree.lawful_store hbareArgs tree
  obtain ⟨-, -, -, -, -, -, -, hsame⟩ := runCommandLine_all_or_nothing FileTree.lawful_store hinPlaceArgs tree
  obtain ⟨hagain, hcontent'⟩ := hsame againArgs againRequest tree hagainArgs hagrees
  have hjobs : c.Has .jobs := not_not.mp fun hn => by cases (hasks c hc).defaultJobs hn
  have hfailFast : ¬ c.Has .failFast := fun hw => by cases (hasks c hc).failFast.mpr hw
  exact ⟨⟨hbare, hbin, hinput _ (by decide), c, hc, (hasks c hc).noHeader.mp rfl, hjobs, hfailFast⟩, ⟨hback, hasm⟩,
    hinPlace, himage, hconf _ (by decide), hagain.trans hinPlace, hcontent' hinPlace _ _ hplace hplace'⟩

end HexAsm
