import HexAsm.Proofs.Lemmas.Canonical
import HexAsm.Proofs.Lemmas.Encoding
import HexAsm.Proofs.Lemmas.Pass

/-!
# Listed words

The text of an instruction that was read from a word is assembled to the canonical form of the word, unless the word
holds a register that a line cannot name there.
-/

namespace HexAsm

open HexAsm.Text

/-! ## Parts of words -/

namespace Word

theorem ext_parts {v w : Word} (hc : v.code = w.code) (hs : ∀ s, v.slot s = w.slot s)
    (hp : v.payload = w.payload) : v = w := by
  rw [← pack_parts v, ← pack_parts w, hc, hp, show v.slot = w.slot from funext hs]

theorem code_lt (w : Word) : w.code.toNat < 16 := by
  have := w.raw.toNat_lt
  simp only [code, UInt8.toNat_ofNat']
  omega

theorem code_keep (w : Word) (m : Mask) : (w.keep m).code = w.code := by
  apply UInt8.toNat_inj.mp
  rw [keep, code_pack]
  exact Nat.mod_eq_of_lt w.code_lt

theorem slot_keep (w : Word) (m : Mask) (s : Slot) : (w.keep m).slot s = if m.has s then w.slot s else 0 := by
  apply UInt8.toNat_inj.mp
  rw [keep, slot_pack]
  split
  · exact Nat.mod_eq_of_lt (w.slot_lt s)
  · rfl

theorem payload_keep (w : Word) (m : Mask) : (w.keep m).payload = if m.payload then w.payload else 0 := by
  rw [keep, payload_pack]

/-- The word with another value in a slot. -/
def setSlot (w : Word) (s : Slot) (v : UInt8) : Word := pack w.code (fun t => if t = s then v else w.slot t) w.payload

theorem code_setSlot (w : Word) (s : Slot) (v : UInt8) : (w.setSlot s v).code = w.code := by
  apply UInt8.toNat_inj.mp
  rw [setSlot, code_pack]
  exact Nat.mod_eq_of_lt w.code_lt

theorem slot_setSlot (w : Word) (s t : Slot) {v : UInt8} (hv : v.toNat < 16) :
    (w.setSlot s v).slot t = if t = s then v else w.slot t := by
  apply UInt8.toNat_inj.mp
  rw [setSlot, slot_pack]
  split
  · exact Nat.mod_eq_of_lt hv
  · exact Nat.mod_eq_of_lt (w.slot_lt t)

theorem payload_setSlot (w : Word) (s : Slot) (v : UInt8) : (w.setSlot s v).payload = w.payload := by
  rw [setSlot, payload_pack]

end Word

/-! ## Canonical words -/

namespace Layout

/-- The word with every part that the layout does not use zeroed, and the fixed slot of the layout set. -/
def canonical (l : Layout) (w : Word) : Word :=
  match l.fixed with
  | none => w.keep l.used
  | some (s, v) => (w.keep l.used).setSlot s v

theorem code_canonical (l : Layout) (w : Word) : (l.canonical w).code = w.code := by
  unfold canonical
  split
  · exact Word.code_keep ..
  · rw [Word.code_setSlot, Word.code_keep]

theorem payload_canonical (l : Layout) (w : Word) : (l.canonical w).payload = (l.literal w.payload).getD 0 := by
  have hkeep : (w.keep l.used).payload = (l.literal w.payload).getD 0 := by
    rw [Word.payload_keep, used_payload, literal]
    cases l.payload <;> rfl
  unfold canonical
  split
  · exact hkeep
  · rw [Word.payload_setSlot, hkeep]

theorem WellFormed.slot_canonical_operand {l : Layout} (hl : l.WellFormed) (w : Word) {o : Operand}
    (ho : o ∈ l.operands) : (l.canonical w).slot o.slot = w.slot o.slot := by
  have hkeep : (w.keep l.used).slot o.slot = w.slot o.slot := by
    rw [Word.slot_keep, if_pos ((l.used_has o.slot).mpr (.inl ⟨o, ho, rfl⟩))]
  unfold canonical
  split
  · exact hkeep
  · rename_i s v hf
    rw [Word.slot_setSlot _ _ _ (hl.fixed_lt (s, v) hf), if_neg (hl.fixed_apart (s, v) hf o ho), hkeep]

theorem WellFormed.slot_canonical_other {l : Layout} (hl : l.WellFormed) (w : Word) {s : Slot}
    (hs : ∀ o ∈ l.operands, o.slot ≠ s) :
    (l.canonical w).slot s = ((l.fixed.filter fun f => f.1 == s).map (·.2)).getD 0 := by
  have hused : l.used.has s = true ↔ ∃ f ∈ l.fixed, f.1 = s := by
    rw [used_has]
    exact ⟨fun h => h.resolve_left fun ⟨o, ho, h⟩ => hs o ho h, .inr⟩
  unfold canonical
  split
  · rename_i hf
    rw [Word.slot_keep, if_neg (by simp [hused, hf]), hf]
    rfl
  · rename_i t v hf
    rw [Word.slot_setSlot _ _ _ (hl.fixed_lt (t, v) hf), hf]
    by_cases h : s = t
    · simp [h, Option.filter]
    · have h' : ¬ t = s := fun e => h e.symm
      have hno : ¬ l.used.has s = true := by simp [hused, hf, h']
      simp [h, h', Option.filter, Word.slot_keep, hno]

/-- Packing the registers that are read from a word gives the canonical form of the word. -/
theorem word_eq_canonical {l : Layout} {w : Word} {regs : List Register} (hl : l ∈ all) (hcode : l.code = w.code)
    (hr : List.Forall₂ (fun o r => Register.ofNibble? (w.slot o.slot) = some r) l.operands regs) :
    l.word regs ((l.literal w.payload).getD 0) = l.canonical w := by
  have hwf := wellFormed_of_mem hl
  refine Word.ext_parts ?_ (fun s => ?_) ?_
  · rw [hwf.code_word, code_canonical, hcode]
  · by_cases hs : ∃ o ∈ l.operands, o.slot = s
    · obtain ⟨o, ho, rfl⟩ := hs
      obtain ⟨r, hmem, hnibble⟩ := exists_zip_of_forall₂ hr ho
      apply UInt8.toNat_inj.mp
      rw [hwf.slot_canonical_operand w ho, word, Word.slot_pack, hwf.fill_operand hr.length_eq.symm hmem,
        Register.nibble_of_ofNibble? hnibble]
      exact Nat.mod_eq_of_lt (w.slot_lt _)
    · have hs' : ∀ o ∈ l.operands, o.slot ≠ s := fun o ho h => hs ⟨o, ho, h⟩
      apply UInt8.toNat_inj.mp
      rw [hwf.slot_canonical_other w hs', word, Word.slot_pack, fill_other hs']
      cases hf : l.fixed with
      | none => rfl
      | some f =>
          have hlt := hwf.fixed_lt f hf
          by_cases h : f.1 = s
          · simp only [Option.filter, h, beq_self_eq_true, if_true, Option.map_some, Option.getD_some]
            exact Nat.mod_eq_of_lt hlt
          · simp [Option.filter, h]
  · rw [payload_word, payload_canonical]

theorem literal_getD (l : Layout) (p : UInt16) : l.literal ((l.literal p).getD 0) = l.literal p := by
  unfold literal
  split <;> rfl

/-- A literal that may be left out may be written as zero. -/
theorem Obeyed.literal {l : Layout} {regs : List Register} {v : Option UInt16} (h : l.Obeyed regs v) :
    l.Obeyed regs (l.literal (v.getD 0)) where
  count := h.count
  writable := h.writable
  literal_absent hp := by simp [Layout.literal, hp]
  literal_present hp := by rcases hp with hp | hp <;> simp [Layout.literal, hp]
  payload_free := h.payload_free
  payload_given hp _ := by simp [Layout.literal, hp]

theorem Obeyed.getD_literal {l : Layout} {regs : List Register} {v : Option UInt16} (h : l.Obeyed regs v) :
    (l.literal (v.getD 0)).getD 0 = v.getD 0 := by
  unfold Layout.literal
  split
  · rw [h.literal_absent ‹_›]
  · rfl

/-! ## Words that no line holds -/

/-- The word holds a register that no line can name there: one that cannot be written in the slot of a destination,
or the register that reads the payload where the payload has another use. -/
def Refuses (l : Layout) (w : Word) : Prop :=
  (∃ o ∈ l.operands, o.role = .destination ∧ (w.slot o.slot = 0xE ∨ w.slot o.slot = 0xF)) ∨
    (l.payload = .address ∨ l.payload = .value) ∧ ∃ o ∈ l.operands, w.slot o.slot = 0xF

instance (l : Layout) (w : Word) : Decidable (l.Refuses w) := inferInstanceAs (Decidable (_ ∨ _))

section

variable {l : Layout} {w : Word} {regs : List Register}
  (hr : List.Forall₂ (fun o r => Register.ofNibble? (w.slot o.slot) = some r) l.operands regs)

include hr

theorem immediate_mem_iff : .immediate ∈ regs ↔ ∃ o ∈ l.operands, w.slot o.slot = 0xF := by
  constructor
  · intro h
    obtain ⟨o, ho, hn⟩ := exists_right_of_forall₂ hr.flip h
    exact ⟨o, ho, (Register.nibble_of_ofNibble? hn).symm⟩
  · rintro ⟨o, ho, hn⟩
    obtain ⟨r, hr, hs⟩ := exists_right_of_forall₂ hr ho
    rw [hn] at hs
    cases hs
    exact hr

theorem writable_iff :
    (∀ p ∈ l.operands.zip regs, p.1.role = .destination → p.2 ≠ .random ∧ p.2 ≠ .immediate) ↔
      ∀ o ∈ l.operands, o.role = .destination → w.slot o.slot ≠ 0xE ∧ w.slot o.slot ≠ 0xF := by
  constructor
  · intro h o ho hrole
    obtain ⟨r, hz, hs⟩ := exists_zip_of_forall₂ hr ho
    have hne := h (o, r) hz hrole
    refine ⟨fun he => ?_, fun he => ?_⟩
    · rw [he] at hs
      cases hs
      exact hne.1 rfl
    · rw [he] at hs
      cases hs
      exact hne.2 rfl
  · rintro h ⟨o, r⟩ hz hrole
    have hs := Register.nibble_of_ofNibble? ((List.forall₂_iff_zip.mp hr).2 hz)
    have hne := h o (List.of_mem_zip hz).1 hrole
    rw [← hs] at hne
    exact ⟨fun he => hne.1 (congrArg Register.nibble he), fun he => hne.2 (congrArg Register.nibble he)⟩

/-- What is read from a word obeys the layout, unless the layout refuses the word. -/
theorem obeyed_iff_not_refuses : l.Obeyed regs (l.literal w.payload) ↔ ¬ l.Refuses w := by
  have hw := writable_iff hr
  have himm := immediate_mem_iff hr
  constructor
  · rintro ho (⟨o, hmem, hrole, hslot⟩ | ⟨hp, h⟩)
    · have hne := hw.mp ho.writable o hmem hrole
      exact hslot.elim hne.1 hne.2
    · exact ho.payload_free hp (himm.mpr h)
  · intro h
    have hwrite : ∀ o ∈ l.operands, o.role = .destination → w.slot o.slot ≠ 0xE ∧ w.slot o.slot ≠ 0xF :=
      fun o ho hrole => ⟨fun he => h (.inl ⟨o, ho, hrole, .inl he⟩), fun he => h (.inl ⟨o, ho, hrole, .inr he⟩)⟩
    refine ⟨hr.length_eq.symm, hw.mpr hwrite, fun hp => by simp [literal, hp], fun hp => ?_,
      fun hp hm => h (.inr ⟨hp, himm.mp hm⟩), fun hp _ => by simp [literal, hp]⟩
    rcases hp with hp | hp <;> simp [literal, hp]

end

end Layout

/-! ## The text of a listed word -/

namespace Instruction

theorem oneLine_text (i : Instruction) : OneLine i.text := by
  intro c hc
  have hc' : c ∈ i.chars := by simpa [text] using hc
  rcases mem_chars hc' with h | rfl | rfl
  · exact ⟨ne_of_isAlphanum h (by decide), ne_of_isAlphanum h (by decide)⟩
  · decide
  · decide

theorem fits_of_ofWord {w : Word} {i : Instruction} {l : Layout} (h : ofWord w = .ok i)
    (hl : Layout.ofCode? w.code = some l) : i.Fits l := by
  obtain ⟨l', hl', hop, hlit, hregs⟩ := ofWord_eq_ok.mp h
  obtain rfl : l' = l := by simpa [hl'] using hl
  have hm := (Layout.ofCode?_eq_some.mp hl).1
  have hrange : i.InRange := by
    intro r hr
    obtain ⟨o, _, hn⟩ := exists_right_of_forall₂ hregs.flip hr
    exact Register.inRange_of_ofNibble? hn
  refine ⟨by rw [hop, Layout.layout?_operation hm], hregs.length_eq.symm, hrange, fun hp => ?_, fun hp => ?_⟩
  · simp [hlit, Layout.literal, hp]
  · rcases hp with hp | hp <;> simp [hlit, Layout.literal, hp]

theorem legal_bind_toWord (i : Instruction) : (i.legal >>= toWord) = i.toWord := by
  unfold toWord legal
  cases h : i.fault? with
  | none => simp [bind, Except.bind, h]
  | some f => rfl

end Instruction

theorem convertLine_text {i : Instruction} {l : Layout} (h : i.Fits l) (n : Nat) :
    convertLine ⟨n, i.text⟩ = i.toWord.mapError .line := by
  have htidy : String.ofList (Line.tidy i.text.toList) = i.text := by
    rw [Instruction.text, String.toList_ofList, h.tidy_chars]
  rw [convertLine, htidy, Word.ofLine, h.ofLine_text, Instruction.legal_bind_toWord]

/-- The word holds a register that its layout does not let a line name. -/
def Word.Refused (w : Word) : Prop := ∃ l ∈ Layout.ofCode? w.code, l.Refuses w

instance : DecidablePred Word.Refused :=
  fun w => inferInstanceAs (Decidable (∃ l ∈ Layout.ofCode? w.code, l.Refuses w))

/-- The canonical form of a word under the layout of its code. -/
def Word.canonical (w : Word) : Word := ((Layout.ofCode? w.code).map fun l => l.canonical w).getD w

/-- The line that lists a word gives the canonical form of the word, which stands for the same instruction, unless the
word is refused. -/
theorem convertLine_listed {w : Word} {i : Instruction} (h : Instruction.ofWord w = .ok i) (n : Nat) :
    (w.Refused → ∃ f, convertLine ⟨n, i.text⟩ = .error f ∧ f.kind = .malformedOperands) ∧
      (¬ w.Refused →
        convertLine ⟨n, i.text⟩ = .ok (some w.canonical) ∧ Instruction.ofWord w.canonical = .ok i) := by
  obtain ⟨l, hl, hop, hlit, hregs⟩ := Instruction.ofWord_eq_ok.mp h
  obtain ⟨hm, hcode⟩ := Layout.ofCode?_eq_some.mp hl
  have hfits := Instruction.fits_of_ofWord h hl
  have hcanonical : w.canonical = l.word i.regs (i.literal.getD 0) := by
    rw [hlit, Layout.word_eq_canonical hm hcode hregs]
    simp [Word.canonical, hl]
  have hrefused : l.Obeyed i.regs i.literal ↔ ¬ w.Refused := by
    rw [hlit, Layout.obeyed_iff_not_refuses hregs]
    simp [Word.Refused, hl]
  have hline := convertLine_text hfits n
  refine ⟨fun hr => ?_, fun hr => ?_⟩
  · rcases Instruction.legal_of_layout hfits.layout with ⟨ho, -⟩ | ⟨-, f, hf⟩
    · exact absurd hr (hrefused.mp ho)
    · refine ⟨.line (.operands l.mnemonic f), ?_, rfl⟩
      rw [hline, Instruction.toWord, hf]
      rfl
  · have hto := Instruction.toWord_eq_ok_some.mpr ⟨l, hfits.layout, hrefused.mpr hr, hcanonical⟩
    refine ⟨by rw [hline, hto]; rfl, ?_⟩
    rw [hcanonical, Instruction.ofWord_word_inRange hm hfits.count hfits.inRange, ← hop, hlit, Layout.literal_getD, ← hlit]

example : Word.canonical ⟨0x1ABC0010⟩ = ⟨0x1F000010⟩ := by decide

example : Word.Refused ⟨0x2A1F0010⟩ ∧ ¬ Word.Refused ⟨0x4A1F0010⟩ := by decide

/-- A word that a line stands for is listed, and its listing is assembled to it again. -/
theorem Word.listed_of_ofLine {s : String} {w : Word} (h : Word.ofLine s = .ok (some w)) :
    ∃ i, Instruction.ofWord w = .ok i ∧ ∀ n, convertLine ⟨n, i.text⟩ = .ok (some w) := by
  obtain ⟨j, hj, hw⟩ := bind_eq_ok.mp h
  obtain ⟨l, hlayout, ho, rfl⟩ := Instruction.toWord_eq_ok_some.mp hw
  obtain ⟨hm, hop⟩ := Operation.layout?_eq_some.mp hlayout
  have hrange : j.InRange := Instruction.inRange_of_ofLine hj (Operation.ne_comment hlayout)
  have ho' := ho.literal
  let i : Instruction := ⟨l.operation, j.regs, l.literal (j.literal.getD 0)⟩
  have hlayout' : i.op.layout? = some l := Layout.layout?_operation hm
  have hfits : i.Fits l := ⟨hlayout', ho.count, hrange, ho'.literal_absent, ho'.literal_present⟩
  refine ⟨i, Instruction.ofWord_word_inRange hm ho.count hrange, fun n => ?_⟩
  rw [convertLine_text hfits, Instruction.toWord_eq_ok_some.mpr ⟨l, hlayout', ho', by rw [ho.getD_literal]⟩]
  rfl

theorem convertLine_eq_ok {item : Item} {r : Option Word} :
    convertLine item = .ok r ↔ Word.ofLine (String.ofList (Line.tidy item.text.toList)) = .ok r := by
  unfold convertLine
  cases Word.ofLine (String.ofList (Line.tidy item.text.toList)) <;> simp [Except.mapError]

theorem convertLine_emitted {item : Item} {w : Word} (h : convertLine item = .ok (some w)) :
    ∃ i, Instruction.ofWord w = .ok i ∧ ∀ n, convertLine ⟨n, i.text⟩ = .ok (some w) :=
  Word.listed_of_ofLine (convertLine_eq_ok.mp h)

end HexAsm
