import HexAsm.Proofs.Lemmas.Listing

/-!
# Legal words

The rules of an operation tell registers apart by what they are, but a word and a line hold only their numbers. So an
instruction on registers that the machine does not have can obey the rules while its word breaks them: a register with
the number of `E` is written, or one with the number zero leaves its slot empty. A word is legal, and the text of the
instruction stands for it, exactly if the registers of the machine with the same numbers obey the rules.
-/

namespace HexAsm

open HexAsm.Text

/-! ## Registers by number -/

namespace Register

/-- The registers of the machine that have the numbers of the given registers. -/
def Renamed (regs named : List Register) : Prop := List.Forall₂ (fun r r' => ofNibble? r.nibble = some r') regs named

theorem ofDigit?_digit (r : Register) : ofDigit? r.digit = ofNibble? r.nibble := by
  by_cases h : r.nibble.toNat < 16
  · rw [ofDigit?, digit, Hex.digit?_digit h, Option.bind_some, UInt8.ofNat_toNat]
  · have hdigit : r.digit = '0' := by
      rw [digit, Hex.digit, List.getD_eq_getElem?_getD, List.getElem?_eq_none (by simp [Hex.alphabet]; omega)]
      rfl
    rw [hdigit]
    cases hr : ofNibble? r.nibble with
    | none => decide
    | some r' => exact absurd (ofNibble?_lt hr) h

theorem renamed_self {regs : List Register} (h : ∀ r ∈ regs, r.InRange) : Renamed regs regs :=
  List.forall₂_same.mpr h

theorem Renamed.inRange {regs named : List Register} (h : Renamed regs named) : ∀ r ∈ named, r.InRange := by
  intro r hr
  obtain ⟨_, _, hn⟩ := exists_right_of_forall₂ h.flip hr
  exact inRange_of_ofNibble? hn

theorem Renamed.word_eq {regs named : List Register} (h : Renamed regs named) (l : Layout) (p : UInt16) :
    l.word named p = l.word regs p := by
  have hfill : l.fill named = l.fill regs := by
    funext s
    unfold Layout.fill
    generalize l.operands = os
    induction h generalizing os with
    | nil => rfl
    | cons hr _ ih =>
        cases os with
        | nil => rfl
        | cons o os =>
            rw [List.zip_cons_cons, List.zip_cons_cons, List.find?_cons, List.find?_cons]
            cases ho : o.slot == s with
            -- the slot holds the number, which is the same under either name
            | true => exact nibble_of_ofNibble? hr
            | false => exact ih os
  rw [Layout.word, Layout.word, hfill]

end Register

/-! ## Reading the text of an instruction -/

namespace Instruction

variable {i : Instruction} {l : Layout}

theorem take_tokens (hc : i.regs.length = l.operands.length) :
    (tokens l i).take l.operands.length =
      (l.operands.zip i.regs).map fun p => ⟨[p.2.digit], p.1.separator == .comma⟩ := by
  rw [tokens]
  exact List.take_left' (by simp [hc])

theorem drop_tokens (hc : i.regs.length = l.operands.length) :
    (tokens l i).drop l.operands.length = i.literal.toList.map fun v => ⟨Hex.digits 4 v.toNat, false⟩ := by
  rw [tokens]
  exact List.drop_left' (by simp [hc])

theorem commaFault?_zip {os : List Operand} {regs : List Register} {ts : List Token} (hc : regs.length = os.length)
    (hts : ∀ t ∈ ts, t.comma = false) :
    Layout.commaFault? os ((os.zip regs).map (fun p => ⟨[p.2.digit], p.1.separator == .comma⟩) ++ ts) = none := by
  induction os generalizing regs with
  | nil => exact Layout.commaFault?_nil_eq_none.mpr hts
  | cons o os ih =>
      cases regs with
      | nil => simp at hc
      | cons r regs => exact Layout.commaFault?_cons_eq_none.mpr ⟨rfl, ih (by simpa using hc)⟩

theorem commaFault?_tokens (hc : i.regs.length = l.operands.length) :
    Layout.commaFault? l.operands (tokens l i) = none := by
  refine commaFault?_zip hc (fun t ht => ?_)
  obtain ⟨v, _, rfl⟩ := List.mem_map.mp ht
  rfl

theorem shapeFault?_tokens (ho : l.Obeyed i.regs i.literal) : l.shapeFault? (tokens l i) = none := by
  refine Layout.shapeFault?_eq_none.mpr ⟨?_, fun t ht => (isWord_of_mem_tokens t ht).1, commaFault?_tokens ho.count⟩
  have hlen : (tokens l i).length = l.operands.length + i.literal.toList.length := by simp [tokens, ho.count]
  have habsent := ho.literal_absent
  have hpresent := ho.literal_present
  rw [hlen, Layout.arity]
  cases hp : l.payload <;> cases hlit : i.literal <;> simp [hp, hlit, PayloadRule.arity] at habsent hpresent ⊢

/-- The text of an instruction that obeys its layout is read as its tokens, whatever its registers are. -/
theorem ofLine_text_of_obeyed (hl : i.op.layout? = some l) (ho : l.Obeyed i.regs i.literal) :
    ofLine i.text = ofTokens l (tokens l i) := by
  have hm := (Operation.layout?_eq_some.mp hl).1
  have hmnemonic := (mnemonicWritten_iff hm).mp (mnemonicWritten_mnemonic l)
  have hspelled := Line.spelled_spelling (isWord_of_mem_tokens (i := i) (l := l))
  have hblank : Blanks [] := by simp [Blanks]
  have htext : i.text.toList = [] ++ (l.mnemonic.toList ++ Line.spelling (tokens l i)) ++ [] := by
    simp [text, chars_eq_spelling hl]
  exact ofLine_of_spelled hmnemonic hspelled (shapeFault?_tokens ho) hblank hblank htext

theorem readRegisters_tokens (hc : i.regs.length = l.operands.length) {regs : List Register} :
    ((tokens l i).take l.operands.length).mapM l.readRegister = .ok regs ↔ Register.Renamed i.regs regs := by
  have hread : ∀ (b : Bool) (r r' : Register),
      l.readRegister ⟨[r.digit], b⟩ = .ok r' ↔ Register.ofNibble? r.nibble = some r' := by
    intro b r r'
    rw [Layout.readRegister_eq_ok, ← Register.ofDigit?_digit]
    simp [Register.ofDigit?_eq_some]
  have hzip : (l.operands.zip i.regs).map Prod.snd = i.regs := List.map_snd_zip (by omega)
  rw [take_tokens hc, mapM_eq_ok, List.forall₂_map_left_iff, Register.Renamed]
  nth_rewrite 2 [← hzip]
  rw [List.forall₂_map_left_iff]
  simp only [hread]

theorem readLiteral_tokens (hc : i.regs.length = l.operands.length) :
    ((tokens l i).drop l.operands.length).head?.mapM (fun t => readLiteral t.chars) = .ok i.literal := by
  rw [drop_tokens hc]
  cases i.literal with
  | none => rfl
  | some v => simp [readLiteral_eq_ok.mpr (literal_digits v)]

/-- The text of an instruction that obeys its layout is read as the same operation on the registers of the machine with
the same numbers, if they exist and obey the layout too. -/
theorem ofLine_text_eq_ok (hl : i.op.layout? = some l) (ho : l.Obeyed i.regs i.literal) {j : Instruction} :
    ofLine i.text = .ok j ↔
      j.op = i.op ∧ j.literal = i.literal ∧ Register.Renamed i.regs j.regs ∧ l.Obeyed j.regs j.literal := by
  obtain ⟨hm, hop⟩ := Operation.layout?_eq_some.mp hl
  rw [ofLine_text_of_obeyed hl ho, ofTokens_eq_ok hm, readRegisters_tokens ho.count, readLiteral_tokens ho.count, hop]
  constructor
  · rintro ⟨h, hregs, hlit, hj⟩
    exact ⟨h, (Except.ok.inj hlit).symm, hregs, hj⟩
  · rintro ⟨h, hlit, hregs, hj⟩
    exact ⟨h, hregs, congrArg Except.ok hlit.symm, hj⟩

/-! ## Legal words -/

/-- The word can be read, it obeys the rules of its operation, and the text of the instruction stands for it. -/
structure LegalWord (i : Instruction) (w : Word) : Prop where
  readable : ∃ j, ofWord w = .ok j
  writable : ∀ l ∈ i.op.layout?, ∀ o ∈ l.operands, o.role = .destination → w.slot o.slot ≠ 0xE ∧ w.slot o.slot ≠ 0xF
  payload_free : ∀ l ∈ i.op.layout?, l.payload = .address ∨ l.payload = .value → ∀ o ∈ l.operands, w.slot o.slot ≠ 0xF
  spelled : Word.ofLine i.text = .ok (some w)

theorem ofLine_text_word (hl : i.op.layout? = some l) (ho : l.Obeyed i.regs i.literal) {regs : List Register}
    (hregs : Register.Renamed i.regs regs) (hobeyed : l.Obeyed regs i.literal) :
    Word.ofLine i.text = .ok (some (l.word i.regs (i.literal.getD 0))) := by
  have hread : ofLine i.text = .ok { i with regs := regs } := (ofLine_text_eq_ok hl ho).mpr ⟨rfl, rfl, hregs, hobeyed⟩
  refine bind_eq_ok.mpr ⟨_, hread, toWord_eq_ok_some.mpr ⟨l, hl, hobeyed, ?_⟩⟩
  exact (hregs.word_eq l _).symm

/-- The word of registers that the machine has under other names obeys the rules that these obey. -/
theorem legalWord_of_renamed (hl : i.op.layout? = some l) (ho : l.Obeyed i.regs i.literal) {regs : List Register}
    (hregs : Register.Renamed i.regs regs) (hobeyed : l.Obeyed regs i.literal) :
    i.LegalWord (l.word i.regs (i.literal.getD 0)) := by
  obtain ⟨hm, hop⟩ := Operation.layout?_eq_some.mp hl
  -- the word is read back as the renamed registers, so its slots are refused only if they are
  have hread := ofWord_word_inRange hm (p := i.literal.getD 0) hobeyed.count hregs.inRange
  rw [hregs.word_eq] at hread
  obtain ⟨l', hcode, hop', hlit, hslots⟩ := ofWord_eq_ok.mp hread
  obtain rfl : l' = l := by
    have hl' := Layout.layout?_operation (Layout.ofCode?_eq_some.mp hcode).1
    rw [← hop', Layout.layout?_operation hm] at hl'
    exact (Option.some.inj hl').symm
  have hrefuses := (Layout.obeyed_iff_not_refuses hslots).mp (hlit ▸ hobeyed.literal)
  have hlayout : ∀ l'' ∈ i.op.layout?, l'' = l' := fun l'' h => Option.some.inj (h.symm.trans hl)
  refine ⟨⟨_, hread⟩, fun l'' h o hmem hrole => ?_, fun l'' h hp o hmem hs => ?_, ofLine_text_word hl ho hregs hobeyed⟩
  · rw [hlayout l'' h] at hmem
    exact ⟨fun hs => hrefuses (.inl ⟨o, hmem, hrole, .inl hs⟩), fun hs => hrefuses (.inl ⟨o, hmem, hrole, .inr hs⟩)⟩
  · rw [hlayout l'' h] at hp hmem
    exact hrefuses (.inr ⟨hp, o, hmem, hs⟩)

/-- The word of an instruction is legal exactly if the registers of the machine with the same numbers obey the rules, as
they do if the instruction names them itself. -/
theorem legalWord_iff_renamed {w : Word} (h : i.toWord = .ok (some w)) :
    (i.LegalWord w ↔ ∃ regs, Register.Renamed i.regs regs ∧ ({ i with regs := regs } : Instruction).fault? = none) ∧
      (i.InRange → i.LegalWord w) := by
  obtain ⟨l, hl, ho, rfl⟩ := toWord_eq_ok_some.mp h
  refine ⟨⟨fun hw => ?_, ?_⟩, fun hr => legalWord_of_renamed hl ho (Register.renamed_self hr) ho⟩
  · obtain ⟨j, hj, _⟩ := bind_eq_ok.mp hw.spelled
    obtain ⟨_, hlit, hregs, hobeyed⟩ := (ofLine_text_eq_ok hl ho).mp hj
    rw [hlit] at hobeyed
    exact ⟨j.regs, hregs, (fault?_eq_none (i := { i with regs := j.regs }) hl).mpr hobeyed⟩
  · rintro ⟨regs, hregs, hf⟩
    exact legalWord_of_renamed hl ho hregs ((fault?_eq_none (i := { i with regs := regs }) hl).mp hf)

/-- A register that is read may go under the number of `E`. -/
theorem legalWord_numbered_source :
    let i : Instruction := ⟨.add, [.numbered 14, .numbered 3, .numbered 2], none⟩
    i.toWord = .ok (some ⟨0x42E30000⟩) ∧ i.LegalWord ⟨0x42E30000⟩ := by
  intro i
  have hw : i.toWord = .ok (some ⟨0x42E30000⟩) := by decide
  have hregs : Register.Renamed i.regs [.random, .numbered 3, .numbered 2] := .cons rfl (.cons rfl (.cons rfl .nil))
  exact ⟨hw, (legalWord_iff_renamed hw).1.mpr ⟨_, hregs, rfl⟩⟩

/-- A register that is written may not: its word has `E` in the slot of the destination, and no line stands for it. A
register with the number zero gives a word that cannot be read. -/
theorem not_legalWord_numbered_destination :
    let i : Instruction := ⟨.add, [.numbered 3, .numbered 5, .numbered 14], none⟩
    let j : Instruction := ⟨.add, [.numbered 0, .numbered 5, .numbered 1], none⟩
    (i.toWord = .ok (some ⟨0x4E350000⟩) ∧ Word.slot ⟨0x4E350000⟩ .n = 0xE ∧
        Word.ofLine i.text = .error (.operands "ADD" (.readOnlyDestination .random)) ∧ ¬ i.LegalWord ⟨0x4E350000⟩) ∧
      j.toWord = .ok (some ⟨0x41050000⟩) ∧ ofWord ⟨0x41050000⟩ = .error (.emptySlot ⟨0x41050000⟩ .r2 "ADD") ∧
        ¬ j.LegalWord ⟨0x41050000⟩ := by
  intro i j
  have hline : Word.ofLine i.text = .error (.operands "ADD" (.readOnlyDestination .random)) := by decide
  have hread : ofWord ⟨0x41050000⟩ = .error (.emptySlot ⟨0x41050000⟩ .r2 "ADD") := by decide
  refine ⟨⟨by decide, by decide, hline, fun h => ?_⟩, by decide, hread, fun h => ?_⟩
  · cases hline.symm.trans h.spelled
  · obtain ⟨k, hk⟩ := h.readable
    cases hread.symm.trans hk

end Instruction

end HexAsm
