import HexAsm.Proofs.Lemmas.Listing

/-!
# The parts of a word that are read

A word is read by its operation code, the slots of the operands and, unless the payload is forbidden, the payload. Two
words stand for the same instruction exactly if they agree in these parts. A word stands for none if its code is unknown,
or if one of the slots is zero; then the first operand with such a slot is named.
-/

namespace HexAsm

namespace Layout

/-- The words agree in every part that the layout reads. -/
structure Agree (l : Layout) (w w' : Word) : Prop where
  code : w'.code = w.code
  slots : ∀ o ∈ l.operands, w'.slot o.slot = w.slot o.slot
  payload : l.payload ≠ .forbidden → w'.payload = w.payload

/-- The operand is the first, in the order of the operands, whose slot is zero. -/
def FirstEmpty (l : Layout) (w : Word) (o : Operand) : Prop :=
  ∃ before after, l.operands = before ++ o :: after ∧ (∀ x ∈ before, w.slot x.slot ≠ 0) ∧ w.slot o.slot = 0

theorem literal_eq_iff {l : Layout} {p q : UInt16} : l.literal p = l.literal q ↔ (l.payload ≠ .forbidden → p = q) := by
  by_cases h : l.payload = .forbidden <;> simp [literal, h]

theorem FirstEmpty.mem {l : Layout} {w : Word} {o : Operand} (h : l.FirstEmpty w o) : o ∈ l.operands := by
  obtain ⟨before, after, hos, -, -⟩ := h
  simp [hos]

theorem FirstEmpty.slot_eq {l : Layout} {w : Word} {o : Operand} (h : l.FirstEmpty w o) : w.slot o.slot = 0 := by
  obtain ⟨_, _, _, _, ho⟩ := h
  exact ho

theorem eq_of_code {l l' : Layout} (hl : l ∈ all) (hl' : l' ∈ all) (h : l.code = l'.code) : l = l' := by
  have hcode := ofCode?_code hl
  rw [h, ofCode?_code hl'] at hcode
  exact (Option.some.inj hcode).symm

end Layout

namespace Instruction

/-! ## Two words -/

theorem registers_eq_iff {os : List Operand} {w w' : Word} {regs : List Register}
    (h : List.Forall₂ (fun o r => Register.ofNibble? (w.slot o.slot) = some r) os regs) :
    List.Forall₂ (fun o r => Register.ofNibble? (w'.slot o.slot) = some r) os regs ↔
      ∀ o ∈ os, w'.slot o.slot = w.slot o.slot := by
  induction h with
  | nil => simp
  | @cons o r os regs hr _ ih =>
      have hslot : Register.ofNibble? (w'.slot o.slot) = some r ↔ w'.slot o.slot = w.slot o.slot := by
        refine ⟨fun hr' => ?_, fun heq => by rw [heq, hr]⟩
        rw [← Register.nibble_of_ofNibble? hr, ← Register.nibble_of_ofNibble? hr']
      rw [List.forall₂_cons, List.forall_mem_cons, hslot, ih]

theorem ofWord_eq_iff_agree {w w' : Word} {i : Instruction} (h : ofWord w = .ok i) :
    ofWord w' = .ok i ↔ ∃ l ∈ Layout.all, l.code = w.code ∧ l.Agree w w' := by
  obtain ⟨l, hl, hop, hliteral, hregs⟩ := ofWord_eq_ok.mp h
  obtain ⟨hm, hcode⟩ := Layout.ofCode?_eq_some.mp hl
  constructor
  · intro h'
    obtain ⟨l', hl', hop', hliteral', hregs'⟩ := ofWord_eq_ok.mp h'
    obtain ⟨hm', hcode'⟩ := Layout.ofCode?_eq_some.mp hl'
    -- the operation of the instruction gives the layout away
    obtain rfl : l' = l := by
      have hlayout := Layout.layout?_operation hm'
      rw [← hop', hop, Layout.layout?_operation hm] at hlayout
      exact (Option.some.inj hlayout).symm
    have hpayload := Layout.literal_eq_iff.mp (hliteral'.symm.trans hliteral)
    exact ⟨l', hm', hcode, hcode'.symm.trans hcode, (registers_eq_iff hregs).mp hregs', hpayload⟩
  · rintro ⟨l', hm', hcode', hagree⟩
    obtain rfl := Layout.eq_of_code hm' hm (hcode'.trans hcode.symm)
    refine ofWord_eq_ok.mpr ⟨l', by rw [hagree.code, hl], hop, ?_, (registers_eq_iff hregs).mpr hagree.slots⟩
    rw [hliteral]
    exact Layout.literal_eq_iff.mpr fun hp => (hagree.payload hp).symm

/-! ## The parts that are kept -/

/-- The instruction that a word stands for under a layout, read from the word with all unused parts zeroed. A fault
still names the whole word. -/
def ofUsed (l : Layout) (w : Word) : Except WordFault Instruction := do
  let used := w.keep l.used
  let regs ← l.operands.mapM fun o =>
    match Register.ofNibble? (used.slot o.slot) with
    | some r => .ok r
    | none => .error (.emptySlot w o.slot l.mnemonic)
  return ⟨l.operation, regs, if l.payload = .forbidden then none else some used.payload⟩

theorem slot_keep_used {l : Layout} {o : Operand} (ho : o ∈ l.operands) (w : Word) :
    (w.keep l.used).slot o.slot = w.slot o.slot := by
  rw [Word.slot_keep, if_pos ((l.used_has _).mpr (.inl ⟨o, ho, rfl⟩))]

theorem payload_keep_used {l : Layout} (h : l.payload ≠ .forbidden) (w : Word) :
    (w.keep l.used).payload = w.payload := by
  simp [Word.payload_keep, Layout.used_payload, h]

theorem ofWord_eq_ofUsed {l : Layout} {w : Word} (hl : Layout.ofCode? w.code = some l) : ofWord w = ofUsed l w := by
  have hregs : l.operands.mapM (readSlot w l) = l.operands.mapM fun o =>
      match Register.ofNibble? ((w.keep l.used).slot o.slot) with
      | some r => .ok r
      | none => .error (.emptySlot w o.slot l.mnemonic) := by
    refine mapM_congr fun o ho => ?_
    rw [slot_keep_used ho]
    rfl
  have hliteral : (if l.payload = .forbidden then none else some w.payload) =
      if l.payload = .forbidden then none else some (w.keep l.used).payload := by
    by_cases hp : l.payload = .forbidden
    · rw [if_pos hp, if_pos hp]
    · rw [if_neg hp, if_neg hp, payload_keep_used hp]
  simp only [ofWord, hl, ofUsed, hregs, hliteral]
  rfl

/-! ## Words that cannot be read -/

theorem ofWord_cases (w : Word) :
    (∀ l ∈ Layout.all, l.code ≠ w.code) ∧ ofWord w = .error (.unknownCode w) ∨
      ∃ l ∈ Layout.all, l.code = w.code ∧
        ((∃ o, l.FirstEmpty w o ∧ ofWord w = .error (.emptySlot w o.slot l.mnemonic)) ∨
          (∀ o ∈ l.operands, w.slot o.slot ≠ 0) ∧ ∃ i, ofWord w = .ok i) := by
  cases hl : Layout.ofCode? w.code with
  | none =>
      refine .inl ⟨fun l hm hcode => ?_, by rw [ofWord, hl]⟩
      rw [Layout.ofCode?_eq_some.mpr ⟨hm, hcode⟩] at hl
      cases hl
  | some l =>
      obtain ⟨hm, hcode⟩ := Layout.ofCode?_eq_some.mp hl
      refine .inr ⟨l, hm, hcode, ?_⟩
      obtain ⟨before, after, hos, hb, ha⟩ := exists_split_first (fun o => w.slot o.slot ≠ 0) l.operands
      cases after with
      | nil =>
          rw [List.append_nil] at hos
          rw [← hos] at hb
          exact .inr ⟨hb, exists_ofWord hl hb⟩
      | cons o after =>
          have ho : w.slot o.slot = 0 := not_not.mp (ha o rfl)
          exact .inl ⟨o, ⟨before, after, hos, hb, ho⟩, ofWord_eq_emptySlot hl hos hb ho⟩

theorem ofWord_unknown_iff (w : Word) :
    (∃ f, ofWord w = .error f ∧ f.kind = .unknownOpcode) ↔ ∀ l ∈ Layout.all, l.code ≠ w.code := by
  rcases ofWord_cases w with ⟨hnone, h⟩ | ⟨l, hm, hcode, ⟨o, -, h⟩ | ⟨-, i, h⟩⟩
  · exact iff_of_true ⟨_, h, rfl⟩ hnone
  · refine iff_of_false ?_ fun hnone => hnone l hm hcode
    rintro ⟨f, hf, hkind⟩
    cases h.symm.trans hf
    cases hkind
  · refine iff_of_false ?_ fun hnone => hnone l hm hcode
    rintro ⟨f, hf, -⟩
    cases h.symm.trans hf

theorem ofWord_malformed {w : Word} {f : WordFault} (hf : ofWord w = .error f) (hkind : f.kind = .malformedWord) :
    ∃ l ∈ Layout.all, l.code = w.code ∧ ∃ o, l.FirstEmpty w o ∧ f = .emptySlot w o.slot l.mnemonic := by
  rcases ofWord_cases w with ⟨-, h⟩ | ⟨l, hm, hcode, ⟨o, ho, h⟩ | ⟨-, i, h⟩⟩
  · cases h.symm.trans hf
    cases hkind
  · exact ⟨l, hm, hcode, o, ho, Except.error.inj (hf.symm.trans h)⟩
  · cases h.symm.trans hf

theorem exists_ofWord_iff (w : Word) :
    (∃ i, ofWord w = .ok i) ↔ ∃ l ∈ Layout.all, l.code = w.code ∧ ∀ o ∈ l.operands, w.slot o.slot ≠ 0 := by
  constructor
  · rintro ⟨i, hi⟩
    rcases ofWord_cases w with ⟨-, h⟩ | ⟨l, hm, hcode, ⟨o, -, h⟩ | ⟨hfull, -⟩⟩
    · cases h.symm.trans hi
    · cases h.symm.trans hi
    · exact ⟨l, hm, hcode, hfull⟩
  · rintro ⟨l, hm, hcode, hfull⟩
    exact exists_ofWord (Layout.ofCode?_eq_some.mpr ⟨hm, hcode⟩) hfull

theorem ofWord_malformed_iff (w : Word) :
    (∃ f, ofWord w = .error f ∧ f.kind = .malformedWord) ↔
      ∃ l ∈ Layout.all, l.code = w.code ∧ ∃ o ∈ l.operands, w.slot o.slot = 0 := by
  constructor
  · rintro ⟨f, hf, hkind⟩
    obtain ⟨l, hm, hcode, o, ho, -⟩ := ofWord_malformed hf hkind
    exact ⟨l, hm, hcode, o, ho.mem, ho.slot_eq⟩
  · rintro ⟨l, hm, hcode, o, ho, hslot⟩
    rcases ofWord_cases w with ⟨hnone, -⟩ | ⟨l', hm', hcode', ⟨o', -, h⟩ | ⟨hfull, -⟩⟩
    · exact absurd hcode (hnone l hm)
    · exact ⟨_, h, rfl⟩
    · obtain rfl := Layout.eq_of_code hm hm' (hcode.trans hcode'.symm)
      exact absurd hslot (hfull o ho)

/-- A word is read by the parts that the layout of its code reads, and by no other. It is unknown if no layout has its
code, and malformed if an operand slot is zero, in which case the first such operand is named; otherwise it can be
read. Either way the unused parts may be zeroed before. -/
theorem ofWord_reads_layout :
    (∀ w w' i, ofWord w = .ok i → (ofWord w' = .ok i ↔ ∃ l ∈ Layout.all, l.code = w.code ∧ l.Agree w w')) ∧
      ∀ w,
        ((∃ f, ofWord w = .error f ∧ f.kind = .unknownOpcode) ↔ ∀ l ∈ Layout.all, l.code ≠ w.code) ∧
        ((∃ f, ofWord w = .error f ∧ f.kind = .malformedWord) ↔
          ∃ l ∈ Layout.all, l.code = w.code ∧ ∃ o ∈ l.operands, w.slot o.slot = 0) ∧
        (∀ f, ofWord w = .error f → f.kind = .malformedWord →
          ∃ l ∈ Layout.all, l.code = w.code ∧ ∃ o, l.FirstEmpty w o ∧ f = .emptySlot w o.slot l.mnemonic) ∧
        ((∃ i, ofWord w = .ok i) ↔ ∃ l ∈ Layout.all, l.code = w.code ∧ ∀ o ∈ l.operands, w.slot o.slot ≠ 0) ∧
        ∀ l ∈ Layout.all, l.code = w.code → ofWord w = ofUsed l w :=
  ⟨fun _ _ _ h => ofWord_eq_iff_agree h, fun w =>
    ⟨ofWord_unknown_iff w, ofWord_malformed_iff w, fun _ hf hkind => ofWord_malformed hf hkind, exists_ofWord_iff w,
      fun _ hm hcode => ofWord_eq_ofUsed (Layout.ofCode?_eq_some.mpr ⟨hm, hcode⟩)⟩⟩

/-- A jump is read without its slots, but not without its payload. Of the two empty slots of a sum the one of the second
source is named, though the one of the destination stands before it in the word. -/
theorem ofWord_reads_layout_jump :
    let i : Instruction := ⟨.jump, [], some 0x10F0⟩
    let w : Word := ⟨0x40300000⟩
    ofWord ⟨0x1F1110F0⟩ = .ok i ∧ ofWord ⟨0x102310F0⟩ = .ok i ∧ ofWord ⟨0x1F1110F1⟩ ≠ .ok i ∧
      ofWord w = .error (.emptySlot w .r1 "ADD") ∧ w.slot .n = 0 ∧
      ∃ l ∈ Layout.all, l.code = w.code ∧ ∃ o, l.FirstEmpty w o ∧ o.slot = .r1 := by
  intro i w
  have hi : ofWord ⟨0x1F1110F0⟩ = .ok i := by decide
  have hw : ofWord w = .error (.emptySlot w .r1 "ADD") := by decide
  obtain ⟨l, hm, hcode, o, ho, hf⟩ := (ofWord_reads_layout.2 w).2.2.1 _ hw rfl
  refine ⟨hi, (ofWord_reads_layout.1 _ _ _ hi).mpr ?_, by decide, hw, by decide, l, hm, hcode, o, ho, ?_⟩
  · exact ⟨⟨.jump, "JMP", 0x1, [], .address, Layout.jumpMark⟩, by decide, by decide, by decide, by simp, by decide⟩
  · injection hf with _ hslot
    exact hslot.symm

end Instruction

end HexAsm
