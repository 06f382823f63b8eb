import HexAsm.Proofs.Lemmas.Layout

/-!
# Legal instructions

What a slot holds of a register, and the rules that the operands of a legal instruction obey.
-/

namespace HexAsm

/-! ## Registers -/

namespace Register

/-- The low four bits of the value of a register, which are all that a slot holds. -/
def low (r : Register) : UInt8 := r.nibble % 16

/-- The register is one of the machine. -/
def InRange (r : Register) : Prop := ofNibble? r.nibble = some r

instance : DecidablePred InRange := fun r => inferInstanceAs (Decidable (ofNibble? r.nibble = some r))

theorem nibble_of_ofNibble? {v : UInt8} {r : Register} (h : ofNibble? v = some r) : r.nibble = v := by
  unfold ofNibble? at h
  split at h
  · cases h; simp [nibble, *]
  · split at h
    · cases h; simp [nibble, *]
    · split at h
      · cases h; rfl
      · cases h

theorem inRange_of_ofNibble? {v : UInt8} {r : Register} (h : ofNibble? v = some r) : r.InRange := by
  rw [InRange, nibble_of_ofNibble? h]
  exact h

theorem ofNibble?_lt {v : UInt8} {r : Register} (h : ofNibble? v = some r) : v.toNat < 16 := by
  unfold ofNibble? at h
  split at h
  · simp [*]
  · split at h
    · simp [*]
    · split at h
      · rename_i hv
        have := UInt8.le_iff_toNat_le.mp hv.2
        simp at this
        omega
      · cases h

/-- Of the values that a slot can hold, only zero stands for no register. -/
theorem ofNibble?_eq_none {v : UInt8} (hv : v.toNat < 16) : ofNibble? v = none ↔ v = 0 := by
  have all : ∀ n : Fin 16, ofNibble? (UInt8.ofNat n) = none ↔ UInt8.ofNat n = 0 := by decide
  have := all ⟨v.toNat, hv⟩
  simpa using this

theorem low_lt (r : Register) : r.low.toNat < 16 := by
  simp only [low, UInt8.toNat_mod]
  exact Nat.mod_lt _ (by decide)

theorem exists_ofNibble?_low {r : Register} (h : r.low ≠ 0) : ∃ r', ofNibble? r.low = some r' := by
  cases hr : ofNibble? r.low with
  | none => exact absurd ((ofNibble?_eq_none r.low_lt).mp hr) h
  | some r' => exact ⟨r', rfl⟩

theorem InRange.low_eq {r : Register} (h : r.InRange) : r.low = r.nibble := by
  have := ofNibble?_lt h
  apply UInt8.toNat_inj.mp
  simp only [low, UInt8.toNat_mod]
  exact Nat.mod_eq_of_lt this

theorem InRange.ofNibble?_low {r : Register} (h : r.InRange) : ofNibble? r.low = some r := by
  rw [h.low_eq]
  exact h

theorem readOnly_eq_false {r : Register} : r.readOnly = false ↔ r ≠ .random ∧ r ≠ .immediate := by
  cases r <;> simp [readOnly]

end Register

/-! ## Operands under a layout -/

namespace Layout

/-- The rules that a layout sets for the operands. -/
structure Obeyed (l : Layout) (regs : List Register) (literal : Option UInt16) : Prop where
  count : regs.length = l.operands.length
  writable : ∀ p ∈ l.operands.zip regs, p.1.role = .destination → p.2 ≠ .random ∧ p.2 ≠ .immediate
  literal_absent : l.payload = .forbidden → literal = none
  literal_present : l.payload = .address ∨ l.payload = .value → literal ≠ none
  payload_free : l.payload = .address ∨ l.payload = .value → .immediate ∉ regs
  payload_given : l.payload = .immediate → .immediate ∈ regs → literal ≠ none

theorem countFault?_eq_none {l : Layout} {regs : List Register} :
    l.countFault? regs = none ↔ regs.length = l.operands.length := by
  simp [countFault?]

theorem writeFault?_eq_none {l : Layout} {regs : List Register} :
    l.writeFault? regs = none ↔
      ∀ p ∈ l.operands.zip regs, p.1.role = .destination → p.2 ≠ .random ∧ p.2 ≠ .immediate := by
  simp only [writeFault?, List.findSome?_eq_none_iff, ← Register.readOnly_eq_false]
  simp [Role.writes]

theorem payloadFault?_eq_none {l : Layout} {regs : List Register} {literal : Option UInt16} :
    l.payloadFault? regs literal = none ↔
      (l.payload = .forbidden → literal = none) ∧
      (l.payload = .address ∨ l.payload = .value → literal ≠ none) ∧
      (l.payload = .address ∨ l.payload = .value → .immediate ∉ regs) ∧
      (l.payload = .immediate → .immediate ∈ regs → literal ≠ none) := by
  cases hp : l.payload <;> cases literal <;> simp [payloadFault?, hp]

theorem fault?_eq_none {l : Layout} {regs : List Register} {literal : Option UInt16} :
    l.fault? regs literal = none ↔ l.Obeyed regs literal := by
  simp only [fault?, Option.or_eq_none_iff, countFault?_eq_none, writeFault?_eq_none, payloadFault?_eq_none]
  constructor
  · rintro ⟨hc, hw, ha, hp, hf, hg⟩
    exact ⟨hc, hw, ha, hp, hf, hg⟩
  · intro h
    exact ⟨h.count, h.writable, h.literal_absent, h.literal_present, h.payload_free, h.payload_given⟩

end Layout

/-! ## Legal instructions -/

namespace Instruction

/-- Every register of the instruction is one of the machine. -/
def InRange (i : Instruction) : Prop := ∀ r ∈ i.regs, r.InRange

theorem fault?_eq_none {i : Instruction} {l : Layout} (hl : i.op.layout? = some l) :
    i.fault? = none ↔ l.Obeyed i.regs i.literal := by
  simp [fault?, hl, Layout.fault?_eq_none]

theorem legal_eq_ok {i j : Instruction} : i.legal = .ok j ↔ i.fault? = none ∧ j = i := by
  unfold legal
  cases i.fault? with
  | none => simp [eq_comm]
  | some f => simp

/-- A legal instruction keeps its rules; any other fault of the operands is a fault of the mnemonic's operands. -/
theorem legal_of_layout {i : Instruction} {l : Layout} (hl : i.op.layout? = some l) :
    (l.Obeyed i.regs i.literal ∧ i.legal = .ok i) ∨
      ¬ l.Obeyed i.regs i.literal ∧ ∃ f, i.legal = .error (.operands l.mnemonic f) := by
  cases hf : l.fault? i.regs i.literal with
  | none => exact .inl ⟨Layout.fault?_eq_none.mp hf, by simp [legal, fault?, hl, hf]⟩
  | some f =>
      refine .inr ⟨fun ho => ?_, f, by simp [legal, fault?, hl, hf]⟩
      rw [Layout.fault?_eq_none.mpr ho] at hf
      cases hf

end Instruction

end HexAsm
