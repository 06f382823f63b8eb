import Mathlib.Data.List.Forall2

/-!
# Reading in order

A list is read item by item from the left. All items are read, or the first that cannot be read decides the fault.
-/

namespace HexAsm

variable {α β ε : Type} {f : α → Except ε β}

theorem bind_eq_ok {x : Except ε α} {b : β} : (x >>= f) = .ok b ↔ ∃ a, x = .ok a ∧ f a = .ok b := by
  cases x <;> simp [bind, Except.bind]

theorem map_eq_ok {x : Except ε α} {g : α → β} {b : β} : x.map g = .ok b ↔ ∃ a, x = .ok a ∧ g a = b := by
  cases x <;> simp [Except.map]

theorem mapError_bind {ε' : Type} (k : ε → ε') (x : Except ε α) (f : α → Except ε β) :
    (x >>= f).mapError k = (x.mapError k >>= fun a => (f a).mapError k) := by
  cases x <;> rfl

theorem mapError_map {ε' : Type} (k : ε → ε') (g : α → β) (x : Except ε α) :
    (g <$> x).mapError k = g <$> x.mapError k := by
  cases x <;> rfl

/-! ## Lists related item by item -/

theorem exists_forall₂ {R : α → β → Prop} {as : List α} (h : ∀ a ∈ as, ∃ b, R a b) :
    ∃ bs, List.Forall₂ R as bs := by
  induction as with
  | nil => exact ⟨[], .nil⟩
  | cons a as ih =>
      obtain ⟨b, hb⟩ := h a (by simp)
      obtain ⟨bs, hbs⟩ := ih (fun x hx => h x (by simp [hx]))
      exact ⟨b :: bs, .cons hb hbs⟩

theorem exists_zip_of_forall₂ {R : α → β → Prop} {as : List α} {bs : List β} (h : List.Forall₂ R as bs) {a : α}
    (ha : a ∈ as) : ∃ b, (a, b) ∈ as.zip bs ∧ R a b := by
  induction h with
  | nil => cases ha
  | @cons x b _ _ hxb _ ih =>
      rcases List.mem_cons.mp ha with rfl | ha
      · exact ⟨b, by simp, hxb⟩
      · obtain ⟨b', hb', hR⟩ := ih ha
        exact ⟨b', by simp [hb'], hR⟩

theorem exists_right_of_forall₂ {R : α → β → Prop} {as : List α} {bs : List β} (h : List.Forall₂ R as bs) {a : α}
    (ha : a ∈ as) : ∃ b ∈ bs, R a b := by
  obtain ⟨b, hb, hR⟩ := exists_zip_of_forall₂ h ha
  exact ⟨b, (List.of_mem_zip hb).2, hR⟩

theorem forall₂_comp {γ : Type} {R : α → β → Prop} {S : β → γ → Prop} {T : α → γ → Prop}
    (hT : ∀ a b c, R a b → S b c → T a c) {as : List α} {bs : List β} {cs : List γ}
    (hR : List.Forall₂ R as bs) (hS : List.Forall₂ S bs cs) : List.Forall₂ T as cs := by
  induction hR generalizing cs with
  | nil => cases hS; exact .nil
  | cons h _ ih =>
      cases hS with
      | cons h' hS => exact .cons (hT _ _ _ h h') (ih hS)

/-- Where some item has the property, there is a first place whose item has it. -/
theorem exists_first_getElem? {P : α → Prop} {as : List α} (h : ∃ a ∈ as, P a) :
    ∃ (k : Nat) (a : α), as[k]? = some a ∧ P a ∧ ∀ j < k, ∀ x, as[j]? = some x → ¬ P x := by
  induction as with
  | nil => simp at h
  | cons a as ih =>
      by_cases ha : P a
      · exact ⟨0, a, rfl, ha, fun j hj => by omega⟩
      · obtain ⟨k, b, hk, hb, hfirst⟩ := ih (by simpa [ha] using h)
        refine ⟨k + 1, b, hk, hb, fun j hj x hx => ?_⟩
        cases j with
        | zero => simp at hx; exact hx ▸ ha
        | succ j => exact hfirst j (by omega) x hx

/-- A list goes on up to the first item that lacks the property, if there is one. -/
theorem exists_split_first (P : α → Prop) (as : List α) :
    ∃ before after, as = before ++ after ∧ (∀ a ∈ before, P a) ∧ ∀ a ∈ after.head?, ¬ P a := by
  induction as with
  | nil => exact ⟨[], [], rfl, by simp, by simp⟩
  | cons a as ih =>
      by_cases ha : P a
      · obtain ⟨before, after, rfl, hb, hafter⟩ := ih
        exact ⟨a :: before, after, rfl, List.forall_mem_cons.mpr ⟨ha, hb⟩, hafter⟩
      · exact ⟨[], a :: as, rfl, by simp, by simpa using ha⟩

/-! ## Reading -/

theorem mapM_eq_ok {as : List α} {bs : List β} :
    as.mapM f = .ok bs ↔ List.Forall₂ (fun a b => f a = .ok b) as bs := by
  induction as generalizing bs with
  | nil =>
      simp only [List.mapM_nil, List.forall₂_nil_left_iff]
      exact ⟨fun h => by cases h; rfl, fun h => by rw [h]; rfl⟩
  | cons a as ih =>
      simp only [List.mapM_cons, bind_eq_ok, ih, List.forall₂_cons_left_iff]
      constructor
      · rintro ⟨b, hb, bs', hbs, h⟩
        cases h
        exact ⟨b, bs', hb, hbs, rfl⟩
      · rintro ⟨b, bs', hb, hbs, rfl⟩
        exact ⟨b, hb, bs', hbs, rfl⟩

theorem mapM_eq_some {f : α → Option β} {as : List α} {bs : List β} :
    as.mapM f = some bs ↔ List.Forall₂ (fun a b => f a = some b) as bs := by
  induction as generalizing bs with
  | nil =>
      simp only [List.mapM_nil, List.forall₂_nil_left_iff]
      exact ⟨fun h => by cases h; rfl, fun h => by rw [h]; rfl⟩
  | cons a as ih =>
      simp only [List.mapM_cons, Option.bind_eq_bind, Option.bind_eq_some_iff, ih, List.forall₂_cons_left_iff]
      constructor
      · rintro ⟨b, hb, bs', hbs, h⟩
        cases h
        exact ⟨b, bs', hb, hbs, rfl⟩
      · rintro ⟨b, bs', hb, hbs, rfl⟩
        exact ⟨b, hb, bs', hbs, rfl⟩

theorem mapError_mapM {ε' : Type} (k : ε → ε') (f : α → Except ε β) (as : List α) :
    (as.mapM f).mapError k = as.mapM fun a => (f a).mapError k := by
  induction as with
  | nil => rfl
  | cons a as ih =>
      rw [List.mapM_cons, List.mapM_cons, mapError_bind]
      congr 1
      funext b
      rw [mapError_bind, ih]
      rfl

theorem mapM_congr {g : α → Except ε β} {as : List α} (h : ∀ a ∈ as, f a = g a) : as.mapM f = as.mapM g := by
  induction as with
  | nil => rfl
  | cons a as ih => rw [List.mapM_cons, List.mapM_cons, h a (by simp), ih fun x hx => h x (by simp [hx])]

/-- The first item that cannot be read decides the fault. -/
theorem mapM_eq_error_of_first {before after : List α} {a : α} {e : ε}
    (hb : ∀ x ∈ before, ∃ b, f x = .ok b) (ha : f a = .error e) :
    (before ++ a :: after).mapM f = .error e := by
  induction before with
  | nil =>
      rw [List.nil_append, List.mapM_cons, ha]
      rfl
  | cons x before ih =>
      obtain ⟨b, hx⟩ := hb x (by simp)
      have := ih (fun y hy => hb y (by simp [hy]))
      rw [List.cons_append, List.mapM_cons, hx, this]
      rfl

end HexAsm
