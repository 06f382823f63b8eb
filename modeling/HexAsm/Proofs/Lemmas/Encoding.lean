import HexAsm.Proofs.Lemmas.Legal
import HexAsm.Proofs.Lemmas.Reading
import Mathlib.Data.List.Nodup

/-!
# Words and instructions

Packing puts the low four bits of each register into the slot of its operand. Reading a word back takes the registers
from the same slots, in the order of the operands.
-/

namespace HexAsm

/-! ## Packed words -/

theorem Word.slot_lt (w : Word) (s : Slot) : (w.slot s).toNat < 16 := by
  simp only [slot, UInt8.toNat_ofNat']
  omega

namespace Layout

theorem WellFormed.fill_operand {l : Layout} (hl : l.WellFormed) {regs : List Register}
    (hc : regs.length = l.operands.length) {o : Operand} {r : Register} (hr : (o, r) ∈ l.operands.zip regs) :
    l.fill regs o.slot = r.nibble := by
  have hnd : ((l.operands.zip regs).map (·.1.slot)).Nodup := by
    have hz : (l.operands.zip regs).map Prod.fst = l.operands := List.map_fst_zip (by omega)
    have hs := hl.slots_nodup
    rw [← hz, List.map_map] at hs
    exact hs
  cases hf : (l.operands.zip regs).find? (fun p => p.1.slot == o.slot) with
  | none =>
      have hn := List.find?_eq_none.mp hf _ hr
      simp at hn
  | some p =>
      have hp := List.mem_of_find?_eq_some hf
      have hs : p.1.slot = o.slot := by simpa using List.find?_some hf
      have he : p = (o, r) := List.inj_on_of_nodup_map hnd hp hr hs
      simp [fill, hf, he]

/-- A slot that no operand has holds the fixed value of the layout, or zero. -/
theorem fill_other {l : Layout} {regs : List Register} {s : Slot} (hs : ∀ o ∈ l.operands, o.slot ≠ s) :
    l.fill regs s = ((l.fixed.filter fun f => f.1 == s).map (·.2)).getD 0 := by
  have hf : (l.operands.zip regs).find? (fun p => p.1.slot == s) = none := by
    apply List.find?_eq_none.mpr
    intro p hp
    simpa using hs p.1 (List.of_mem_zip hp).1
  simp [fill, hf]

/-- The word that the registers and the payload are packed into. -/
def word (l : Layout) (regs : List Register) (payload : UInt16) : Word :=
  Word.pack l.code (l.fill regs) payload

theorem WellFormed.code_word {l : Layout} (hl : l.WellFormed) (regs : List Register) (p : UInt16) :
    (l.word regs p).code = l.code := by
  have := hl.code_lt
  apply UInt8.toNat_inj.mp
  rw [word, Word.code_pack]
  omega

theorem payload_word (l : Layout) (regs : List Register) (p : UInt16) : (l.word regs p).payload = p :=
  Word.payload_pack ..

/-- The literal of an instruction that is read from a word with the given payload. -/
def literal (l : Layout) (payload : UInt16) : Option UInt16 :=
  if l.payload = .forbidden then none else some payload

theorem WellFormed.slots_word {l : Layout} (hl : l.WellFormed) {regs : List Register}
    (hc : regs.length = l.operands.length) (p : UInt16) :
    List.Forall₂ (fun o r => (l.word regs p).slot o.slot = r.low) l.operands regs := by
  apply List.forall₂_iff_zip.mpr
  refine ⟨hc.symm, fun {o r} hr => ?_⟩
  apply UInt8.toNat_inj.mp
  rw [word, Word.slot_pack, hl.fill_operand hc hr]
  simp [Register.low]

end Layout

/-! ## Reading a word -/

namespace Instruction

theorem toWord_eq_ok_some {i : Instruction} {w : Word} :
    i.toWord = .ok (some w) ↔
      ∃ l, i.op.layout? = some l ∧ l.Obeyed i.regs i.literal ∧ w = l.word i.regs (i.literal.getD 0) := by
  cases hl : i.op.layout? with
  | none => cases hf : i.fault? <;> simp [toWord, legal, hf, hl, Except.map]
  | some l =>
      cases hf : i.fault? with
      | none =>
          have := (fault?_eq_none hl).mp hf
          simp [toWord, legal, hf, hl, Except.map, Layout.word, this, eq_comm]
      | some f =>
          have : ¬ l.Obeyed i.regs i.literal := fun ho => by simp [(fault?_eq_none hl).mpr ho] at hf
          simp [toWord, legal, hf, Except.map, this]

theorem readSlot_eq_ok {w : Word} {l : Layout} {o : Operand} {r : Register} :
    readSlot w l o = .ok r ↔ Register.ofNibble? (w.slot o.slot) = some r := by
  unfold readSlot
  cases Register.ofNibble? (w.slot o.slot) <;> simp

theorem readSlot_eq_error {w : Word} {l : Layout} {o : Operand} (h : w.slot o.slot = 0) :
    readSlot w l o = .error (.emptySlot w o.slot l.mnemonic) := by
  have h0 : Register.ofNibble? (w.slot o.slot) = none := (Register.ofNibble?_eq_none (w.slot_lt _)).mpr h
  simp [readSlot, h0]

/-- A word stands for an instruction exactly if its code is known and each operand slot stands for a register. -/
theorem ofWord_eq_ok {w : Word} {i : Instruction} :
    ofWord w = .ok i ↔
      ∃ l, Layout.ofCode? w.code = some l ∧ i.op = l.operation ∧ i.literal = l.literal w.payload ∧
        List.Forall₂ (fun o r => Register.ofNibble? (w.slot o.slot) = some r) l.operands i.regs := by
  cases hl : Layout.ofCode? w.code with
  | none => simp [ofWord, hl]
  | some l =>
      simp only [ofWord, hl, Option.some.injEq, exists_eq_left', ← readSlot_eq_ok (l := l), ← mapM_eq_ok]
      cases hm : l.operands.mapM (readSlot w l) with
      | error e => simp [Except.map]
      | ok regs =>
          obtain ⟨op, regs', lit⟩ := i
          simp only [Except.map, Layout.literal, Except.ok.injEq, Instruction.mk.injEq]
          constructor
          · rintro ⟨rfl, rfl, rfl⟩
            exact ⟨rfl, rfl, rfl⟩
          · rintro ⟨rfl, rfl, rfl⟩
            exact ⟨rfl, rfl, rfl⟩

theorem exists_ofWord {w : Word} {l : Layout} (hl : Layout.ofCode? w.code = some l)
    (h : ∀ o ∈ l.operands, w.slot o.slot ≠ 0) : ∃ i, ofWord w = .ok i := by
  have hread : ∀ o ∈ l.operands, ∃ r, Register.ofNibble? (w.slot o.slot) = some r := by
    intro o ho
    cases hr : Register.ofNibble? (w.slot o.slot) with
    | none => exact absurd ((Register.ofNibble?_eq_none (w.slot_lt _)).mp hr) (h o ho)
    | some r => exact ⟨r, rfl⟩
  obtain ⟨regs, hregs⟩ := exists_forall₂ hread
  exact ⟨⟨l.operation, regs, l.literal w.payload⟩, ofWord_eq_ok.mpr ⟨l, hl, rfl, rfl, hregs⟩⟩

/-- The first operand slot that is zero decides the fault. -/
theorem ofWord_eq_emptySlot {w : Word} {l : Layout} {before after : List Operand} {o : Operand}
    (hl : Layout.ofCode? w.code = some l) (hos : l.operands = before ++ o :: after)
    (hb : ∀ x ∈ before, w.slot x.slot ≠ 0) (ho : w.slot o.slot = 0) :
    ofWord w = .error (.emptySlot w o.slot l.mnemonic) := by
  have hb' : ∀ x ∈ before, ∃ r, readSlot w l x = .ok r := by
    intro x hx
    cases hr : Register.ofNibble? (w.slot x.slot) with
    | none => exact absurd ((Register.ofNibble?_eq_none (w.slot_lt _)).mp hr) (hb x hx)
    | some r => exact ⟨r, readSlot_eq_ok.mpr hr⟩
  have hm : l.operands.mapM (readSlot w l) = .error (.emptySlot w o.slot l.mnemonic) := by
    rw [hos]
    exact mapM_eq_error_of_first hb' (readSlot_eq_error ho)
  simp [ofWord, hl, hm, Except.map]

/-! ## Reading a packed word -/

theorem ofWord_word {l : Layout} (hl : l ∈ Layout.all) {regs cut : List Register} {p : UInt16}
    (hc : regs.length = l.operands.length)
    (hr : List.Forall₂ (fun r r' => Register.ofNibble? r.low = some r') regs cut) :
    ofWord (l.word regs p) = .ok ⟨l.operation, cut, l.literal p⟩ := by
  have hwf := Layout.wellFormed_of_mem hl
  refine ofWord_eq_ok.mpr ⟨l, ?_, rfl, by rw [Layout.payload_word], ?_⟩
  · rw [hwf.code_word]
    exact Layout.ofCode?_code hl
  · exact forall₂_comp (fun o r r' hs hr => by rw [hs]; exact hr) (hwf.slots_word hc p) hr

theorem ofWord_word_inRange {l : Layout} (hl : l ∈ Layout.all) {regs : List Register} {p : UInt16}
    (hc : regs.length = l.operands.length) (hr : ∀ r ∈ regs, r.InRange) :
    ofWord (l.word regs p) = .ok ⟨l.operation, regs, l.literal p⟩ :=
  ofWord_word hl hc (List.forall₂_same.mpr fun r h => (hr r h).ofNibble?_low)

/-- A packed word whose first register with four zero bits belongs to the operand `o` is refused for the slot of `o`. -/
theorem ofWord_word_empty {l : Layout} (hl : l ∈ Layout.all) {regs : List Register} {p : UInt16} {k : Nat}
    {o : Operand} {r : Register} (hc : regs.length = l.operands.length) (ho : l.operands[k]? = some o)
    (hr : regs[k]? = some r) (hz : r.low = 0) (hb : ∀ j < k, ∀ x, regs[j]? = some x → x.low ≠ 0) :
    ofWord (l.word regs p) = .error (.emptySlot (l.word regs p) o.slot l.mnemonic) := by
  have hwf := Layout.wellFormed_of_mem hl
  have hs := List.forall₂_iff_get.mp (hwf.slots_word hc p)
  obtain ⟨hk, rfl⟩ := List.getElem?_eq_some_iff.mp ho
  obtain ⟨hk', rfl⟩ := List.getElem?_eq_some_iff.mp hr
  have hos : l.operands = l.operands.take k ++ l.operands[k] :: l.operands.drop (k + 1) := by simp
  refine ofWord_eq_emptySlot (by rw [hwf.code_word]; exact Layout.ofCode?_code hl) hos ?_ ?_
  · intro x hx
    obtain ⟨j, hj, rfl⟩ := List.mem_take_iff_getElem.mp hx
    have hj' : j < regs.length := by omega
    have hslot := hs.2 j (by omega) hj'
    simp only [List.get_eq_getElem] at hslot
    rw [hslot]
    exact hb j (by omega) _ (List.getElem?_eq_getElem hj')
  · have hslot := hs.2 k hk hk'
    simp only [List.get_eq_getElem] at hslot
    rw [hslot, hz]

end Instruction

end HexAsm
