import HexAsm.Machine.Encoding

/-!
# The operation table

Every layout of the table is well formed, and each look-up finds exactly the layouts of the table with the key that
is asked for.
-/

namespace HexAsm

/-! ## Well-formed layouts -/

/-- What packing and writing rely on: the parts of the word do not overlap, and the line can be read back. -/
structure Layout.WellFormed (l : Layout) : Prop where
  code_lt : l.code.toNat < 16
  slots_nodup : (l.operands.map (·.slot)).Nodup
  fixed_apart : ∀ f ∈ l.fixed, ∀ o ∈ l.operands, o.slot ≠ f.1
  fixed_lt : ∀ f ∈ l.fixed, f.2.toNat < 16
  first_space : ∀ o ∈ l.operands.head?, o.separator = .space
  mnemonic_ne_nil : l.mnemonic.toList ≠ []
  mnemonic_upper : ∀ c ∈ l.mnemonic.toList, 'A' ≤ c ∧ c ≤ 'Z'

theorem Layout.forall_mnemonic {p : Char → Bool} (hp : all.all (·.mnemonic.toList.all p) = true) {l : Layout}
    (h : l ∈ all) : ∀ c ∈ l.mnemonic.toList, p c = true :=
  List.all_eq_true.mp (List.all_eq_true.mp hp l h)

theorem Layout.wellFormed_of_mem {l : Layout} (h : l ∈ all) : l.WellFormed where
  code_lt := (by decide : ∀ l ∈ all, l.code.toNat < 16) l h
  slots_nodup := (by decide : ∀ l ∈ all, (l.operands.map (·.slot)).Nodup) l h
  fixed_apart := (by decide : ∀ l ∈ all, ∀ f ∈ l.fixed, ∀ o ∈ l.operands, o.slot ≠ f.1) l h
  fixed_lt := (by decide : ∀ l ∈ all, ∀ f ∈ l.fixed, f.2.toNat < 16) l h
  first_space := (by decide : ∀ l ∈ all, ∀ o ∈ l.operands.head?, o.separator = .space) l h
  mnemonic_ne_nil := (by decide : ∀ l ∈ all, l.mnemonic.toList ≠ []) l h
  mnemonic_upper c hc := by simpa using forall_mnemonic (p := fun c => 'A' ≤ c ∧ c ≤ 'Z') (by decide) h c hc

theorem Layout.mnemonic_isAlphanum {l : Layout} (h : l ∈ all) : ∀ c ∈ l.mnemonic.toList, c.isAlphanum = true :=
  forall_mnemonic (by decide) h

/-! ## Look-up -/

theorem find?_eq_some_of_unique {α : Type} {p : α → Bool} {as : List α} {a : α}
    (unique : ∀ a ∈ as, ∀ b ∈ as, p a = true → p b = true → a = b) : as.find? p = some a ↔ a ∈ as ∧ p a = true := by
  constructor
  · intro h
    exact ⟨List.mem_of_find?_eq_some h, List.find?_some h⟩
  · rintro ⟨ha, hp⟩
    cases hf : as.find? p with
    | none => exact absurd hp (List.find?_eq_none.mp hf a ha)
    | some b => rw [unique b (List.mem_of_find?_eq_some hf) a ha (List.find?_some hf) hp]

/-- A key that tells the layouts of the table apart finds the layout that has it. -/
theorem Layout.find?_key {κ : Type} [BEq κ] [LawfulBEq κ] (key : Layout → κ)
    (inj : ∀ a ∈ all, ∀ b ∈ all, key a = key b → a = b) {k : κ} {l : Layout} :
    all.find? (fun a => key a == k) = some l ↔ l ∈ all ∧ key l = k := by
  rw [find?_eq_some_of_unique fun a ha b hb hk hk' => inj a ha b hb ((eq_of_beq hk).trans (eq_of_beq hk').symm),
    beq_iff_eq]

theorem Layout.ofCode?_eq_some {c : UInt8} {l : Layout} : ofCode? c = some l ↔ l ∈ all ∧ l.code = c :=
  find?_key Layout.code (by decide)

theorem Operation.layout?_eq_some {op : Operation} {l : Layout} :
    op.layout? = some l ↔ l ∈ Layout.all ∧ l.operation = op :=
  Layout.find?_key Layout.operation (by decide)

theorem Layout.ofMnemonic?_eq_some {cs : List Char} {l : Layout} :
    ofMnemonic? cs = some l ↔ l ∈ all ∧ l.mnemonic.toList = cs.map Char.toUpper :=
  find?_key (·.mnemonic.toList) (by decide)

theorem Layout.layout?_operation {l : Layout} (h : l ∈ all) : l.operation.layout? = some l :=
  Operation.layout?_eq_some.mpr ⟨h, rfl⟩

theorem Layout.ofCode?_code {l : Layout} (h : l ∈ all) : ofCode? l.code = some l :=
  ofCode?_eq_some.mpr ⟨h, rfl⟩

theorem Operation.layout?_eq_none {op : Operation} : op.layout? = none ↔ op = .comment := by
  cases op <;> decide

theorem Operation.ne_comment {op : Operation} {l : Layout} (h : op.layout? = some l) : op ≠ .comment := by
  intro hc
  rw [layout?_eq_none.mpr hc] at h
  cases h

theorem PayloadRule.le_arity (p : PayloadRule) (n : Nat) : n ≤ (p.arity n).1 := by
  cases p <;> simp [arity]

/-! ## Parts of the word -/

theorem Mask.has_add (m : Mask) (s t : Slot) : (m.add s).has t = (m.has t || s == t) := by
  cases s <;> cases t <;> simp [Mask.add, Mask.has]

theorem Mask.has_foldl_add (slots : List Slot) (m : Mask) (t : Slot) :
    (slots.foldl Mask.add m).has t = (m.has t || slots.contains t) := by
  induction slots generalizing m with
  | nil => simp
  | cons s slots ih =>
      rw [List.foldl_cons, ih, Mask.has_add, List.contains_cons, Bool.or_assoc, BEq.comm]

theorem Layout.used_has (l : Layout) (s : Slot) :
    l.used.has s = true ↔ (∃ o ∈ l.operands, o.slot = s) ∨ ∃ f ∈ l.fixed, f.1 = s := by
  have hf : l.used.has s = (l.operands.map (·.slot) ++ (l.fixed.map (·.1)).toList).contains s := by
    have := Mask.has_foldl_add (l.operands.map (·.slot) ++ (l.fixed.map (·.1)).toList) Mask.empty s
    cases s <;> simpa [Layout.used, Mask.has, Mask.empty] using this
  rw [hf]
  simp

theorem Layout.used_payload (l : Layout) : l.used.payload = (l.payload != .forbidden) := rfl

end HexAsm
