import HexAsm.Program.Pass
import HexAsm.Proofs.Lemmas.Image
import HexAsm.Proofs.Lemmas.Reading

/-!
# Passes

What a pass produces comes from its items, in their order. A pass that fails nowhere takes every step, whether it
keeps going or not.
-/

namespace HexAsm

open HexAsm.Text

/-! ## Steps -/

section

variable {α : Type} {p : α → Bool} {as : List α}

theorem upToFirst_eq_self (h : ∀ a ∈ as, p a = false) : upToFirst p as = as := by
  induction as with
  | nil => rfl
  | cons a as ih => simp [upToFirst, h a (by simp), ih (fun x hx => h x (by simp [hx]))]

theorem upToFirst_prefix : upToFirst p as <+: as := by
  induction as with
  | nil => exact List.prefix_rfl
  | cons a as ih =>
      unfold upToFirst
      split
      · exact ⟨as, rfl⟩
      · exact List.cons_prefix_cons.mpr ⟨rfl, ih⟩

theorem forall_upToFirst : (∀ a ∈ upToFirst p as, p a = false) ↔ ∀ a ∈ as, p a = false := by
  induction as with
  | nil => rfl
  | cons a as ih =>
      unfold upToFirst
      cases ha : p a with
      | true => simp [ha]
      | false => simp [ha, ih]

theorem map_fst_zipIdx {β : Type} (f : α → β) (as : List α) (n : Nat) :
    (as.zipIdx n).map (fun p => f p.1) = as.map f := by
  rw [← Function.comp_def f Prod.fst, ← List.map_map, List.zipIdx_map_fst]

theorem map_filter_zipIdx {β : Type} (f : α → β) (q : α → Bool) (as : List α) (n : Nat) :
    ((as.zipIdx n).filter fun x => q x.1).map (fun x => f x.1) = (as.filter q).map f := by
  nth_rewrite 2 [← List.zipIdx_map_fst n as]
  rw [List.filter_map, List.map_map]
  rfl

end

theorem Step.line_of_failure? {α : Type} {s : Step α} {f : Failure} (h : s.failure? = some f) :
    f.line = s.item.line ∧ f.text = String.ofList (trim s.item.text.toList) := by
  unfold failure? at h
  split at h
  · cases h
    exact ⟨rfl, rfl⟩
  · cases h

namespace Pass

variable {α : Type} {convert : Item → Except Fault (Option α)} {items : List Item}

theorem mem_steps_run {keepGoing : Bool} {s : Step α} (h : s ∈ (run convert keepGoing items).steps) :
    s.item ∈ items ∧ s.result = convert s.item := by
  have hall : s ∈ items.map fun item => (⟨item, convert item⟩ : Step α) := by
    cases keepGoing with
    | true => exact h
    | false => exact upToFirst_prefix.subset h
  obtain ⟨item, hitem, rfl⟩ := List.mem_map.mp hall
  exact ⟨hitem, rfl⟩

theorem mem_output_run {keepGoing : Bool} {a : α} (h : a ∈ (run convert keepGoing items).report.output) :
    ∃ item ∈ items, convert item = .ok (some a) := by
  obtain ⟨s, hs, ha⟩ := List.mem_filterMap.mp h
  obtain ⟨hitem, hresult⟩ := mem_steps_run hs
  refine ⟨s.item, hitem, ?_⟩
  rw [← hresult]
  unfold Step.product? at ha
  split at ha
  · cases ha
  · rw [‹s.result = _›, ha]

theorem mem_failures_run {keepGoing : Bool} {f : Failure} (h : f ∈ (run convert keepGoing items).report.failures) :
    ∃ item ∈ items, f.line = item.line := by
  obtain ⟨s, hs, hf⟩ := List.mem_filterMap.mp h
  exact ⟨s.item, (mem_steps_run hs).1, (Step.line_of_failure? hf).1⟩

theorem ok_iff_not_failed (p : Pass α) : p.report.ok = true ↔ ∀ s ∈ p.steps, s.failed = false := by
  simp only [Report.ok, report, List.isEmpty_iff, List.filterMap_eq_nil_iff]
  refine forall₂_congr fun s _ => ?_
  cases h : s.result <;> simp [Step.failure?, Step.failed, h]

/-- A pass reports no failure exactly if every item is converted, whether it keeps going or not. -/
theorem ok_run_iff {keepGoing : Bool} :
    (run convert keepGoing items).report.ok = true ↔ ∀ item ∈ items, ∃ r, convert item = .ok r := by
  have hall : (∀ s ∈ items.map fun item => (⟨item, convert item⟩ : Step α), s.failed = false) ↔
      ∀ item ∈ items, ∃ r, convert item = .ok r := by
    rw [List.forall_mem_map]
    refine forall₂_congr fun item _ => ?_
    cases convert item <;> simp [Step.failed]
  rw [ok_iff_not_failed, ← hall]
  cases keepGoing with
  | true => rfl
  | false => exact forall_upToFirst

theorem run_eq_of_ok (h : ∀ item ∈ items, ∃ r, convert item = .ok r) (keepGoing keepGoing' : Bool) :
    run convert keepGoing items = run convert keepGoing' items := by
  have hsteps : upToFirst Step.failed (items.map fun item => (⟨item, convert item⟩ : Step α)) =
      items.map fun item => ⟨item, convert item⟩ := by
    refine upToFirst_eq_self (List.forall_mem_map.mpr fun item hitem => ?_)
    obtain ⟨r, hr⟩ := h item hitem
    simp [Step.failed, hr]
  simp only [run, hsteps, ite_self]

section

variable {γ : Type} {item : γ → Item} {xs : List γ} {g : γ → α}

/-- If every item has a product, the report lists the products and no failure. -/
theorem report_run_of_ok (h : ∀ x ∈ xs, convert (item x) = .ok (some (g x))) (keepGoing : Bool) :
    (run convert keepGoing (xs.map item)).report = ⟨xs.length, xs.map g, []⟩ := by
  have hmap : ((xs.map item).map fun i => (⟨i, convert i⟩ : Step α)) =
      xs.map fun x => ⟨item x, .ok (some (g x))⟩ := by
    rw [List.map_map]
    exact List.map_congr_left fun x hx => by simp [h x hx]
  have hok : ∀ i ∈ xs.map item, ∃ r, convert i = .ok r := List.forall_mem_map.mpr fun x hx => ⟨_, h x hx⟩
  have hsteps : (run convert keepGoing (xs.map item)).steps = xs.map fun x => ⟨item x, .ok (some (g x))⟩ := by
    rw [run_eq_of_ok hok keepGoing true]
    exact hmap
  have houtput : (run convert keepGoing (xs.map item)).report.output = xs.map g := by
    rw [report, hsteps, List.filterMap_map]
    exact congrFun List.filterMap_eq_map xs
  have hfailures : (run convert keepGoing (xs.map item)).report.failures = [] := by
    rw [report, hsteps, List.filterMap_map]
    simp [Step.failure?]
  have hlines : (run convert keepGoing (xs.map item)).report.lines = xs.length := List.length_map ..
  rw [← houtput, ← hfailures, ← hlines]

variable {refused : γ → Prop} [DecidablePred refused] {kind : FaultKind}

/-- A pass that keeps going lists the products of the items that are not refused, and a failure for each item that
is. -/
theorem report_run_of_refused (hok : ∀ x ∈ xs, ¬ refused x → convert (item x) = .ok (some (g x)))
    (herror : ∀ x ∈ xs, refused x → ∃ f, convert (item x) = .error f ∧ f.kind = kind) :
    (run convert true (xs.map item)).report.output = (xs.filter fun x => ¬ refused x).map g ∧
      (run convert true (xs.map item)).report.failures.map (fun f => (f.line, f.fault.kind)) =
        (xs.filter fun x => refused x).map fun x => ((item x).line, kind) := by
  induction xs with
  | nil => exact ⟨rfl, rfl⟩
  | cons x xs ih =>
      obtain ⟨houtput, hfailures⟩ := ih (fun y hy => hok y (by simp [hy])) (fun y hy => herror y (by simp [hy]))
      simp only [report, run, if_true, List.map_map, List.filterMap_map, decide_not] at houtput hfailures ⊢
      by_cases hx : refused x
      · obtain ⟨f, hf, hkind⟩ := herror x (by simp) hx
        simp [hx, hf, hkind, Step.product?, Step.failure?, houtput, hfailures]
      · simp [hx, hok x (by simp) hx, Step.product?, Step.failure?, houtput, hfailures]

end

end Pass

/-! ## Joined passes -/

/-- The item, the given number of lines further down. -/
def Item.later (n : Nat) (item : Item) : Item := { item with line := item.line + n }

/-- The failure, the given number of lines further down. -/
def Failure.later (n : Nat) (f : Failure) : Failure := { f with line := f.line + n }

theorem Failure.later_later (m n : Nat) (f : Failure) : (f.later m).later n = f.later (m + n) := by
  simp [later, Nat.add_assoc]

/-- The report on two passes, the second over the lines that follow those of the first. -/
def Report.append {α : Type} (r r' : Report α) : Report α :=
  ⟨r.lines + r'.lines, r.output ++ r'.output, r.failures ++ r'.failures.map (Failure.later r.lines)⟩

namespace Pass

variable {α : Type} {convert : Item → Except Fault (Option α)}

theorem report_run_append (items items' : List Item) :
    (run convert true (items ++ items')).report =
      ⟨items.length + items'.length, (run convert true items).report.output ++ (run convert true items').report.output,
        (run convert true items).report.failures ++ (run convert true items').report.failures⟩ := by
  simp only [run, report, if_true, List.length_append, List.map_append, List.filterMap_append]

/-- A pass over items further down, if it pays no attention to line numbers, only fails further down. -/
theorem report_run_later (hconvert : ∀ n item, convert (Item.later n item) = convert item) (items : List Item)
    (n : Nat) :
    (run convert true (items.map (Item.later n))).report =
      ⟨items.length, (run convert true items).report.output,
        (run convert true items).report.failures.map (Failure.later n)⟩ := by
  have hproduct : ∀ item, Step.product? ⟨item.later n, convert (item.later n)⟩ =
      Step.product? ⟨item, convert item⟩ := by
    intro item
    rw [hconvert]
    rfl
  have hfailure : ∀ item, Step.failure? ⟨item.later n, convert (item.later n)⟩ =
      (Step.failure? ⟨item, convert item⟩).map (Failure.later n) := by
    intro item
    rw [hconvert]
    cases convert item <;> rfl
  simp only [run, report, if_true, List.length_map, List.filterMap_map, List.map_filterMap, Function.comp_def, hproduct,
    hfailure]

/-- If no item has a product or a fault, there is nothing to report but their number. -/
theorem report_run_of_none {items : List Item} (h : ∀ item ∈ items, convert item = .ok none) :
    (run convert true items).report = ⟨items.length, [], []⟩ := by
  have hsteps : (run convert true items).steps = items.map fun item => ⟨item, .ok none⟩ :=
    List.map_congr_left fun item hitem => by rw [h item hitem]
  rw [report, hsteps, List.filterMap_map, List.filterMap_map]
  simp [run, Step.product?, Step.failure?]

end Pass

/-! ## Passes compared -/

section

variable {α β : Type} {R : α → α → Prop} {p : α → Bool} {as as' : List α}

theorem forall₂_upToFirst (hp : ∀ a a', R a a' → p a' = p a) (h : List.Forall₂ R as as') :
    List.Forall₂ R (upToFirst p as) (upToFirst p as') := by
  induction h with
  | nil => exact .nil
  | @cons a a' _ _ ha _ ih =>
      unfold upToFirst
      rw [hp a a' ha]
      split
      · exact .cons ha .nil
      · exact .cons ha ih

theorem filterMap_eq_of_forall₂ {f : α → Option β} (hf : ∀ a a', R a a' → f a' = f a) (h : List.Forall₂ R as as') :
    as'.filterMap f = as.filterMap f := by
  induction h with
  | nil => rfl
  | cons ha _ ih => rw [List.filterMap_cons, List.filterMap_cons, hf _ _ ha, ih]

theorem forall₂_zipIdx (h : List.Forall₂ R as as') (n : Nat) :
    List.Forall₂ (fun x x' => R x.1 x'.1 ∧ x'.2 = x.2) (as.zipIdx n) (as'.zipIdx n) := by
  induction h generalizing n with
  | nil => exact .nil
  | cons ha _ ih =>
      rw [List.zipIdx_cons, List.zipIdx_cons]
      exact .cons ⟨ha, rfl⟩ (ih (n + 1))

end

theorem Report.ext {α : Type} {a b : Report α} (hlines : a.lines = b.lines) (houtput : a.output = b.output)
    (hfailures : a.failures = b.failures) : a = b := by
  cases a
  cases b
  simp_all

/-- The steps have the same product, and their failures look the same in the given view. -/
def Step.Alike {α β : Type} (view : Failure → β) (s s' : Step α) : Prop :=
  s'.product? = s.product? ∧ s'.failure?.map view = s.failure?.map view

theorem Step.failed_eq_isSome {α : Type} (s : Step α) : s.failed = s.failure?.isSome := by
  unfold failed failure?
  cases s.result <;> rfl

theorem Step.Alike.failed_eq {α β : Type} {view : Failure → β} {s s' : Step α} (h : Alike view s s') :
    s'.failed = s.failed := by
  have hmap := congrArg Option.isSome h.2
  rw [Option.isSome_map, Option.isSome_map] at hmap
  rw [failed_eq_isSome, failed_eq_isSome, hmap]

/-- Passes whose steps are alike have the same products and alike failures, whether they keep going or not. -/
theorem Pass.report_run_congr {α β : Type} {convert : Item → Except Fault (Option α)} {view : Failure → β}
    {items items' : List Item}
    (h : List.Forall₂ (fun i i' => Step.Alike view ⟨i, convert i⟩ ⟨i', convert i'⟩) items items') (keepGoing : Bool) :
    let report := (run convert keepGoing items).report
    let report' := (run convert keepGoing items').report
    report'.lines = report.lines ∧ report'.output = report.output ∧
      report'.failures.map view = report.failures.map view := by
  intro report report'
  have hall : List.Forall₂ (Step.Alike view) (items.map fun i => (⟨i, convert i⟩ : Step α))
      (items'.map fun i => ⟨i, convert i⟩) :=
    List.forall₂_map_left_iff.mpr (List.forall₂_map_right_iff.mpr h)
  have hsteps : List.Forall₂ (Step.Alike view) (run convert keepGoing items).steps (run convert keepGoing items').steps := by
    cases keepGoing with
    | true => exact hall
    | false => exact forall₂_upToFirst (fun _ _ => Step.Alike.failed_eq) hall
  refine ⟨h.length_eq.symm, filterMap_eq_of_forall₂ (fun _ _ hs => hs.1) hsteps, ?_⟩
  have hfailures := filterMap_eq_of_forall₂ (f := fun s => s.failure?.map view) (fun _ _ hs => hs.2) hsteps
  simp only [report, report', Pass.report, List.map_filterMap]
  exact hfailures

/-! ## Items -/

theorem sourceItems_source {ls : List Listing} (h : ∀ x ∈ ls, OneLine x.text) :
    sourceItems (Listing.source ls) = (ls.zipIdx 1).map fun p => ⟨p.2, p.1.text⟩ := by
  have hlines : ∀ t ∈ ls.map (·.text), OneLine t := by
    intro t ht
    obtain ⟨x, hx, rfl⟩ := List.mem_map.mp ht
    exact h x hx
  simp only [sourceItems, Listing.source, lines_unlines hlines, List.map_map, List.zipIdx_map]
  simp [Function.comp_def]

theorem imageItems_render (ws : List Word) (withHeader : Bool) :
    imageItems (Image.render ws withHeader) =
      (ws.zipIdx (if withHeader then 3 else 1)).map fun p => ⟨p.2, p.1.text⟩ := by
  simp [imageItems, Image.entries_render]

/-- The listing holds the text of the instruction that its word stands for. -/
def Listing.Faithful (x : Listing) : Prop := ∃ i, Instruction.ofWord x.word = .ok i ∧ x.text = i.text

theorem faithful_of_convertEntry {item : Item} {x : Listing} (h : convertEntry item = .ok (some x)) :
    x.Faithful := by
  unfold convertEntry at h
  cases hw : Word.ofText item.text with
  | error e => simp [hw, bind, Except.bind, Except.mapError] at h
  | ok w =>
      cases hi : Instruction.ofWord w with
      | error e => simp [hw, hi, bind, Except.bind, Except.mapError] at h
      | ok i =>
          simp [hw, hi, bind, Except.bind, Except.mapError, pure, Except.pure] at h
          rw [← h]
          exact ⟨i, hi, rfl⟩

theorem faithful_of_mem_disassemble {settings : Settings} {image : String} :
    ∀ x ∈ (disassemble settings image).report.output, x.Faithful := by
  intro x hx
  obtain ⟨item, _, hitem⟩ := Pass.mem_output_run hx
  exact faithful_of_convertEntry hitem

theorem convertEntry_text {w : Word} {i : Instruction} (h : Instruction.ofWord w = .ok i) (n : Nat) :
    convertEntry ⟨n, w.text⟩ = .ok (some ⟨n, w, i.text⟩) := by
  simp [convertEntry, Word.ofText_text, h, bind, Except.bind, Except.mapError, pure, Except.pure]

end HexAsm
