import HexAsm.Proofs.Lemmas.Encoding

/-!
# Packed words read back

A word holds four bits of each register. Reading the word of an instruction gives the instruction back, up to those
four bits and to a literal that was left out; a register without a bit among them makes the word unreadable.
-/

namespace HexAsm.Instruction

/-- The word of an instruction reads back as its operation, its registers cut to four bits, and its literal or zero.
If some register has four zero bits, the slot of the first such operand is reported as empty. Registers of the
machine are kept, so instructions on them share a word only if they agree. -/
theorem ofWord_toWord {i : Instruction} {w : Word} (h : i.toWord = .ok (some w)) :
    ∃ l, i.op.layout? = some l ∧
      ((∀ r ∈ i.regs, r.low ≠ 0) →
        ∃ regs, ofWord w = .ok ⟨i.op, regs, l.literal (i.literal.getD 0)⟩ ∧
          List.Forall₂ (fun r r' => Register.ofNibble? r.low = some r') i.regs regs) ∧
      ((∃ r ∈ i.regs, r.low = 0) →
        ∃ (k : Nat) (o : Operand) (r : Register), l.operands[k]? = some o ∧ i.regs[k]? = some r ∧ r.low = 0 ∧
          (∀ j < k, ∀ x, i.regs[j]? = some x → x.low ≠ 0) ∧
          ofWord w = .error (.emptySlot w o.slot l.mnemonic)) ∧
      (i.InRange → ofWord w = .ok { i with literal := l.literal (i.literal.getD 0) }) ∧
      ∀ j : Instruction, j.toWord = .ok (some w) → i.InRange → j.InRange →
        j.op = i.op ∧ j.regs = i.regs ∧ j.literal.getD 0 = i.literal.getD 0 := by
  obtain ⟨l, hl, ho, rfl⟩ := toWord_eq_ok_some.mp h
  obtain ⟨hm, hop⟩ := Operation.layout?_eq_some.mp hl
  refine ⟨l, hl, ?_, ?_, ?_, ?_⟩
  · intro hr
    have hcut : ∃ regs, List.Forall₂ (fun r r' => Register.ofNibble? r.low = some r') i.regs regs :=
      exists_forall₂ fun r h => Register.exists_ofNibble?_low (hr r h)
    obtain ⟨regs, hregs⟩ := hcut
    exact ⟨regs, by rw [ofWord_word hm ho.count hregs, hop], hregs⟩
  · intro hr
    obtain ⟨k, r, hk, hz, hb⟩ := exists_first_getElem? hr
    have hk' : k < l.operands.length := by
      have := (List.getElem?_eq_some_iff.mp hk).1
      rw [← ho.count]
      exact this
    exact ⟨k, _, r, List.getElem?_eq_getElem hk', hk, hz, hb,
      ofWord_word_empty hm ho.count (List.getElem?_eq_getElem hk') hk hz hb⟩
  · intro hr
    rw [ofWord_word_inRange hm ho.count hr, hop]
  · intro j hj hi hjr
    obtain ⟨l', hl', ho', hw⟩ := toWord_eq_ok_some.mp hj
    obtain ⟨hm', hop'⟩ := Operation.layout?_eq_some.mp hl'
    have hp : j.literal.getD 0 = i.literal.getD 0 := by
      rw [← l'.payload_word j.regs (j.literal.getD 0), ← hw, l.payload_word]
    have hi' := ofWord_word_inRange hm (p := i.literal.getD 0) ho.count hi
    rw [hw, ofWord_word_inRange hm' ho'.count hjr] at hi'
    simp only [Except.ok.injEq, Instruction.mk.injEq] at hi'
    exact ⟨by rw [← hop, ← hop', hi'.1], hi'.2.1, hp⟩

/-- The second and the third operand lose all their bits; the second is reported, though its slot is the last. -/
theorem ofWord_toWord_wide :
    toWord ⟨.add, [.numbered 3, .numbered 0x10, .numbered 0x20], none⟩ = .ok (some ⟨0x40300000⟩) ∧
      ∃ l, Operation.add.layout? = some l ∧
        ∃ (k : Nat) (o : Operand) (r : Register), l.operands[k]? = some o ∧
          [.numbered 3, .numbered 0x10, .numbered 0x20][k]? = some r ∧ r.low = 0 ∧
          ofWord ⟨0x40300000⟩ = .error (.emptySlot ⟨0x40300000⟩ o.slot l.mnemonic) := by
  have h : toWord ⟨.add, [.numbered 3, .numbered 0x10, .numbered 0x20], none⟩ = .ok (some ⟨0x40300000⟩) := by
    decide
  obtain ⟨l, hl, _, hempty, _⟩ := ofWord_toWord h
  obtain ⟨k, o, r, ho, hr, hz, _, he⟩ := hempty ⟨.numbered 0x10, by decide, by decide⟩
  exact ⟨h, l, hl, k, o, r, ho, hr, hz, he⟩

end HexAsm.Instruction
