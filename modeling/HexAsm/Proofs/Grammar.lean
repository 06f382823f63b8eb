import HexAsm.Proofs.Lemmas.Written

/-!
# The grammar of lines

A line holds an instruction if, between blanks, it spells a mnemonic, the operands behind their separators, and a
literal where the payload rule takes one, and if the operands obey the rules of the operation. The reader accepts
exactly these lines.
-/

namespace HexAsm

open HexAsm.Text

/-- The text is the instruction, from its mnemonic to its last operand. -/
inductive Instruction.Written : Instruction → List Char → Prop
  | mk {l regs literal head ops tail} : l ∈ Layout.all →
      MnemonicWritten l head → OperandsWritten l.operands regs ops → LiteralWritten l.payload literal tail →
      (∀ p ∈ l.operands.zip regs, p.1.role = .destination → p.2 ≠ .random ∧ p.2 ≠ .immediate) →
      (l.payload = .address ∨ l.payload = .value → .immediate ∉ regs) →
      (l.payload = .immediate → .immediate ∈ regs → literal ≠ none) →
      Written ⟨l.operation, regs, literal⟩ (head ++ ops ++ tail)

/-- A line is read as an instruction with a word exactly if, between blanks, it is that instruction written out. -/
theorem Instruction.ofLine_iff_written (s : String) (i : Instruction) :
    ofLine s = .ok i ∧ i.op ≠ .comment ↔
      ∃ before line after, s.toList = before ++ line ++ after ∧ Blanks before ∧ Blanks after ∧ Written i line := by
  constructor
  · rintro ⟨h, hi⟩
    obtain ⟨l, before, head, ops, tail, after, hl, hop, ho, hm, hops, hlit, hb, ha, hs⟩ := parts_of_ofLine h hi
    have hw := Written.mk hl hm hops hlit ho.writable ho.payload_free ho.payload_given
    rw [← hop] at hw
    exact ⟨before, _, after, hs, hb, ha, hw⟩
  · rintro ⟨before, line, after, hs, hb, ha, hw⟩
    cases hw with
    | @mk l regs literal head ops tail hl hm hops hlit hwrite hfree hgiven =>
        have ho : l.Obeyed regs literal :=
          ⟨hops.length_eq, hwrite, hlit.absent_of_forbidden, hlit.present_of_required, hfree, hgiven⟩
        have hlayout := Layout.layout?_operation hl
        refine ⟨?_, Operation.ne_comment hlayout⟩
        rw [ofLine_of_parts hl hm hops hlit hb ha hs]
        exact legal_eq_ok.mpr ⟨(fault?_eq_none hlayout).mpr ho, rfl⟩

end HexAsm
