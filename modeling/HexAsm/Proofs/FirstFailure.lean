import HexAsm.Proofs.Lemmas.Pass

/-!
# The first failure

A pass that does not keep going ends with its first failure. Up to there it agrees with the pass that keeps going: it
reports this failure and no other, and what was made of the items before it.
-/

namespace HexAsm

theorem upToFirst_append {α : Type} {p : α → Bool} {before after : List α} (hb : ∀ a ∈ before, p a = false)
    (ha : ∀ a ∈ after.head?, p a = true) : upToFirst p (before ++ after) = before ++ after.take 1 := by
  induction before with
  | nil =>
      cases after with
      | nil => rfl
      | cons a after => simp [upToFirst, ha a rfl]
  | cons b before ih =>
      have ih := ih (fun a h => hb a (by simp [h]))
      rw [List.cons_append, upToFirst, hb b (by simp), ih]
      rfl

variable {α : Type}

/-- One report on the items goes as far as their first failure, and the other one goes on. -/
structure Report.UpToFailure (convert : Item → Except Fault (Option α)) (items : List Item) (full fast : Report α) :
    Prop where
  lines : fast.lines = full.lines
  failures : fast.failures = full.failures.take 1
  output : ∃ before after, items = before ++ after ∧ (∀ item ∈ before, ∃ r, convert item = .ok r) ∧
    (∀ item ∈ after.head?, ∃ fault, convert item = .error fault) ∧
    fast.output = (Pass.run convert true before).report.output ∧
    full.output = fast.output ++ (Pass.run convert true after).report.output
  ok : fast.ok = full.ok
  eq_of_ok : full.failures = [] → fast = full

namespace Pass

variable {convert : Item → Except Fault (Option α)}

/-- A pass that does not keep going looks at the items before the first failure and at the one that fails. -/
theorem report_run_false {before after : List Item} (hb : ∀ item ∈ before, ∃ r, convert item = .ok r)
    (ha : ∀ item ∈ after.head?, ∃ fault, convert item = .error fault) :
    (run convert false (before ++ after)).report =
      { (run convert true (before ++ after.take 1)).report with lines := (before ++ after).length } := by
  have hsteps : upToFirst Step.failed ((before ++ after).map fun item => (⟨item, convert item⟩ : Step α)) =
      (before ++ after.take 1).map fun item => ⟨item, convert item⟩ := by
    rw [List.map_append, List.map_append, List.map_take]
    refine upToFirst_append (List.forall_mem_map.mpr fun item hitem => ?_) fun s hs => ?_
    · obtain ⟨r, hr⟩ := hb item hitem
      simp [Step.failed, hr]
    · rw [List.head?_map] at hs
      obtain ⟨item, hitem, rfl⟩ := Option.mem_map.mp hs
      obtain ⟨fault, hf⟩ := ha item hitem
      simp [Step.failed, hf]
  simp only [run, report, Bool.false_eq_true, if_false, if_true, hsteps]

theorem failures_run_of_converted {items : List Item} (h : ∀ item ∈ items, ∃ r, convert item = .ok r) :
    (run convert true items).report.failures = [] :=
  List.isEmpty_iff.mp (ok_run_iff.mpr h)

theorem report_run_take_one {items : List Item} (h : ∀ item ∈ items.head?, ∃ fault, convert item = .error fault) :
    (run convert true (items.take 1)).report.output = [] ∧
      (run convert true (items.take 1)).report.failures = (run convert true items).report.failures.take 1 := by
  cases items with
  | nil => exact ⟨rfl, rfl⟩
  | cons item items =>
      obtain ⟨fault, hf⟩ := h item rfl
      simp [run, report, Step.product?, Step.failure?, hf]

theorem upToFailure_run (convert : Item → Except Fault (Option α)) (items : List Item) :
    Report.UpToFailure convert items (run convert true items).report (run convert false items).report := by
  have hok : (run convert false items).report.ok = (run convert true items).report.ok :=
    Bool.eq_iff_iff.mpr (ok_run_iff.trans ok_run_iff.symm)
  have heq : (run convert true items).report.failures = [] →
      (run convert false items).report = (run convert true items).report := by
    intro h
    have hall := ok_run_iff.mp (List.isEmpty_iff.mpr h)
    rw [run_eq_of_ok hall false true]
  -- the failing item, if there is one, heads what comes after the items that are converted
  obtain ⟨before, after, rfl, hb, hfirst⟩ := exists_split_first (fun item => ∃ r, convert item = .ok r) items
  have ha : ∀ item ∈ after.head?, ∃ fault, convert item = .error fault := by
    intro item hitem
    cases h : convert item with
    | error fault => exact ⟨fault, rfl⟩
    | ok r => exact absurd ⟨r, h⟩ (hfirst item hitem)
  have hfast := report_run_false hb ha
  obtain ⟨houtput, hfailures⟩ := report_run_take_one ha
  rw [report_run_append before (after.take 1), houtput, hfailures, failures_run_of_converted hb] at hfast
  refine ⟨rfl, ?_, ⟨before, after, rfl, hb, ha, ?_, ?_⟩, hok, heq⟩
  · rw [hfast, report_run_append, failures_run_of_converted hb]
    rfl
  · rw [hfast]
    exact List.append_nil _
  · rw [hfast, report_run_append]
    exact (congrArg (· ++ _) (List.append_nil _)).symm

end Pass

/-- Assembling and disassembling go as far as the first failure if they do not keep going, and agree with the full pass
up to there. -/
theorem upToFailure_of_failFast (settings : Settings) :
    (∀ source, Report.UpToFailure convertLine (sourceItems source)
        (assemble { settings with keepGoing := true } source).report
        (assemble { settings with keepGoing := false } source).report) ∧
      ∀ image, Report.UpToFailure convertEntry (imageItems image)
        (disassemble { settings with keepGoing := true } image).report
        (disassemble { settings with keepGoing := false } image).report :=
  ⟨fun source => Pass.upToFailure_run convertLine (sourceItems source),
    fun image => Pass.upToFailure_run convertEntry (imageItems image)⟩

end HexAsm
