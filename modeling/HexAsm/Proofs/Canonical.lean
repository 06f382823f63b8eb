import HexAsm.Proofs.Lemmas.Listing
import HexAsm.Proofs.Lemmas.Silent

/-!
# Canonical words and texts

A line can stand for exactly the canonical words without a register that is out of place. The text of an instruction
is read as this very instruction exactly if it is legal and names registers of the machine, and every line is read as
such an instruction.
-/

namespace HexAsm

/-! ## Words that lines stand for -/

/-- The word is canonical for the layout, and each of its registers may stand where it does. -/
structure Layout.Writes (l : Layout) (w : Word) : Prop where
  code : w.code = l.code
  unused : w.keep l.used = w
  fixed : ∀ f ∈ l.fixed, w.slot f.1 = f.2
  named : ∀ o ∈ l.operands, w.slot o.slot ≠ 0
  writable : ∀ o ∈ l.operands, o.role = .destination → w.slot o.slot ≠ 0xE ∧ w.slot o.slot ≠ 0xF
  payload_free : l.payload = .address ∨ l.payload = .value → ∀ o ∈ l.operands, w.slot o.slot ≠ 0xF

namespace Layout

instance (l : Layout) (w : Word) : Decidable (l.Writes w) :=
  decidable_of_iff
    (w.code = l.code ∧ w.keep l.used = w ∧ (∀ f ∈ l.fixed, w.slot f.1 = f.2) ∧ (∀ o ∈ l.operands, w.slot o.slot ≠ 0) ∧
      (∀ o ∈ l.operands, o.role = .destination → w.slot o.slot ≠ 0xE ∧ w.slot o.slot ≠ 0xF) ∧
      (l.payload = .address ∨ l.payload = .value → ∀ o ∈ l.operands, w.slot o.slot ≠ 0xF))
    ⟨fun ⟨hc, hu, hf, hn, hw, hp⟩ => ⟨hc, hu, hf, hn, hw, hp⟩,
      fun h => ⟨h.code, h.unused, h.fixed, h.named, h.writable, h.payload_free⟩⟩

theorem WellFormed.canonical_eq_self {l : Layout} (hl : l.WellFormed) {w : Word} :
    l.canonical w = w ↔ w.keep l.used = w ∧ ∀ f ∈ l.fixed, w.slot f.1 = f.2 := by
  cases hf : l.fixed with
  | none => simp [canonical, hf]
  | some f =>
      have hv := hl.fixed_lt f hf
      simp only [canonical, hf, Option.mem_some_iff, forall_eq']
      constructor
      · intro h
        have hslot : w.slot f.1 = f.2 := by
          rw [← h, Word.slot_setSlot _ _ _ hv, if_pos rfl]
        have hused : l.used.has f.1 = true := (l.used_has f.1).mpr (.inr ⟨f, hf, rfl⟩)
        refine ⟨Word.ext_parts (Word.code_keep ..) (fun s => ?_) ?_, hslot⟩
        · by_cases hs : s = f.1
          · rw [hs, Word.slot_keep, if_pos hused]
          · have := Word.slot_setSlot (w.keep l.used) f.1 s hv
            rw [h, if_neg hs] at this
            exact this.symm
        · have := Word.payload_setSlot (w.keep l.used) f.1 f.2
          rw [h] at this
          exact this.symm
      · rintro ⟨hkeep, hslot⟩
        rw [hkeep]
        refine Word.ext_parts (Word.code_setSlot ..) (fun s => ?_) (Word.payload_setSlot ..)
        rw [Word.slot_setSlot _ _ _ hv]
        split
        · rw [‹s = f.1›, hslot]
        · rfl

theorem writes_iff {l : Layout} (hl : l ∈ all) {w : Word} :
    l.Writes w ↔
      ofCode? w.code = some l ∧ w.canonical = w ∧ ¬ w.Refused ∧ ∀ o ∈ l.operands, w.slot o.slot ≠ 0 := by
  have hcanonical := (wellFormed_of_mem hl).canonical_eq_self (w := w)
  constructor
  · intro h
    have hcode : ofCode? w.code = some l := ofCode?_eq_some.mpr ⟨hl, h.code.symm⟩
    refine ⟨hcode, ?_, ?_, h.named⟩
    · simp [Word.canonical, hcode, hcanonical.mpr ⟨h.unused, h.fixed⟩]
    · simp only [Word.Refused, hcode, Option.mem_some_iff, exists_eq_left']
      rintro (⟨o, ho, hrole, hs | hs⟩ | ⟨hp, o, ho, hs⟩)
      · exact (h.writable o ho hrole).1 hs
      · exact (h.writable o ho hrole).2 hs
      · exact h.payload_free hp o ho hs
  · rintro ⟨hcode, hw, hrefused, hnamed⟩
    simp only [Word.canonical, hcode, Option.map_some, Option.getD_some] at hw
    simp only [Word.Refused, hcode, Option.mem_some_iff, exists_eq_left', Refuses, not_or] at hrefused
    obtain ⟨hunused, hfixed⟩ := hcanonical.mp hw
    refine ⟨(ofCode?_eq_some.mp hcode).2.symm, hunused, hfixed, hnamed, fun o ho hrole => ?_, fun hp o ho hs => ?_⟩
    · exact ⟨fun hs => hrefused.1 ⟨o, ho, hrole, .inl hs⟩, fun hs => hrefused.1 ⟨o, ho, hrole, .inr hs⟩⟩
    · exact hrefused.2 ⟨hp, o, ho, hs⟩

end Layout

/-- Some line stands for a word exactly if a layout of the table writes the word. -/
theorem Word.exists_ofLine_iff_writes (w : Word) :
    (∃ s, Word.ofLine s = .ok (some w)) ↔ ∃ l ∈ Layout.all, l.Writes w := by
  constructor
  · rintro ⟨s, hs⟩
    obtain ⟨i, hi, hback⟩ := listed_of_ofLine hs
    obtain ⟨l, hl, -, -, hregs⟩ := Instruction.ofWord_eq_ok.mp hi
    have hm := (Layout.ofCode?_eq_some.mp hl).1
    -- The listing gives the word back, so the word is not refused and is its own canonical form.
    have hrefused : ¬ w.Refused := by
      intro hr
      obtain ⟨f, hf, -⟩ := (convertLine_listed hi 1).1 hr
      rw [hback 1] at hf
      cases hf
    have hcanonical : w.canonical = w := by
      have h := ((convertLine_listed hi 1).2 hrefused).1
      rw [hback 1] at h
      simpa using h.symm
    have hnamed : ∀ o ∈ l.operands, w.slot o.slot ≠ 0 := by
      intro o ho h0
      obtain ⟨r, -, hr⟩ := exists_right_of_forall₂ hregs ho
      rw [h0] at hr
      cases hr
    exact ⟨l, hm, (Layout.writes_iff hm).mpr ⟨hl, hcanonical, hrefused, hnamed⟩⟩
  · rintro ⟨l, hm, hw⟩
    obtain ⟨hl, hcanonical, hrefused, hnamed⟩ := (Layout.writes_iff hm).mp hw
    obtain ⟨i, hi⟩ := Instruction.exists_ofWord hl hnamed
    have hline := ((convertLine_listed hi 1).2 hrefused).1
    rw [hcanonical] at hline
    exact ⟨_, convertLine_eq_ok.mp hline⟩

example : (∃ l ∈ Layout.all, l.Writes ⟨0x1F000010⟩) ∧ ¬ ∃ l ∈ Layout.all, l.Writes ⟨0x1ABC0010⟩ := by decide

/-! ## Texts that are read back -/

namespace Instruction

theorem ofLine_text_comment {i : Instruction} (h : i.op.layout? = none) : ofLine i.text = .ok comment := by
  have ht : i.text = "" := by simp [text, chars, h]
  rw [ht]
  decide

theorem eq_comment_of_ofLine {s : String} {i : Instruction} (h : ofLine s = .ok i) (hi : i.op = .comment) :
    i = comment := by
  have hc := ofLine_of_silent (silent_of_ofLine h hi)
  rw [h] at hc
  exact Except.ok.inj hc

/-- What a line is read as obeys its layout and names registers of the machine. -/
theorem legal_of_ofLine {s : String} {i : Instruction} (h : ofLine s = .ok i) : i.fault? = none ∧ i.InRange := by
  cases hl : i.op.layout? with
  | none =>
      rw [eq_comment_of_ofLine h (Operation.layout?_eq_none.mp hl)]
      exact ⟨rfl, by simp [InRange, comment]⟩
  | some l =>
      have hne := Operation.ne_comment hl
      obtain ⟨l', _, _, _, _, _, hm, hop, ho, _⟩ := parts_of_ofLine h hne
      have hl' : i.op.layout? = some l' := by rw [hop, Layout.layout?_operation hm]
      exact ⟨(fault?_eq_none hl').mpr ho, inRange_of_ofLine h hne⟩

theorem fits_of_legal {i : Instruction} {l : Layout} (hl : i.op.layout? = some l) (hf : i.fault? = none)
    (hr : i.InRange) : i.Fits l := by
  have ho := (fault?_eq_none hl).mp hf
  exact ⟨hl, ho.count, hr, ho.literal_absent, ho.literal_present⟩

theorem eq_comment_of_fault? {i : Instruction} (hl : i.op.layout? = none) (hf : i.fault? = none) : i = comment := by
  obtain ⟨op, regs, literal⟩ := i
  obtain rfl : op = .comment := Operation.layout?_eq_none.mp hl
  simp only [fault?, hl, ite_eq_left_iff, reduceCtorEq, imp_false, not_not] at hf
  rw [hf.1, hf.2, comment]

theorem ofLine_text_of_legal {i : Instruction} (hf : i.fault? = none) (hr : i.InRange) : ofLine i.text = .ok i := by
  cases hl : i.op.layout? with
  | none =>
      rw [ofLine_text_comment hl, eq_comment_of_fault? hl hf]
  | some l => rw [(fits_of_legal hl hf hr).ofLine_text, legal_eq_ok.mpr ⟨hf, rfl⟩]

theorem tidy_text_of_legal {i : Instruction} (hf : i.fault? = none) (hr : i.InRange) :
    String.ofList (Line.tidy i.text.toList) = i.text := by
  cases hl : i.op.layout? with
  | none =>
      have ht : i.text = "" := by simp [text, chars, hl]
      rw [ht]
      decide
  | some l => rw [text, String.toList_ofList, (fits_of_legal hl hf hr).tidy_chars]

/-- The text of an instruction is read as this instruction exactly if it obeys its layout and names registers of the
machine. Whatever a line is read as does so, and its text is tidy and is read as the same instruction again. -/
theorem ofLine_text_eq_ok_iff :
    (∀ i : Instruction, ofLine i.text = .ok i ↔ i.fault? = none ∧ i.InRange) ∧
      ∀ (s : String) (i : Instruction), ofLine s = .ok i →
        (i.fault? = none ∧ i.InRange) ∧ String.ofList (Line.tidy i.text.toList) = i.text ∧ ofLine i.text = .ok i := by
  refine ⟨fun i => ⟨legal_of_ofLine, fun h => ofLine_text_of_legal h.1 h.2⟩, fun s i h => ?_⟩
  obtain ⟨hf, hr⟩ := legal_of_ofLine h
  exact ⟨⟨hf, hr⟩, tidy_text_of_legal hf hr, ofLine_text_of_legal hf hr⟩

/-- The text of an untidy line is read as the same instruction. A register beyond the machine is never read back. -/
theorem ofLine_text_untidy :
    let i : Instruction := ⟨.add, [.immediate, .numbered 3, .numbered 2], some 1⟩
    let far : Instruction := ⟨.add, [.numbered 19, .numbered 3, .numbered 2], none⟩
    ofLine " add f,3 2 1" = .ok i ∧ i.text = "ADD F,3 2 0001" ∧ ofLine i.text = .ok i ∧ ofLine far.text ≠ .ok far := by
  intro i far
  have hi : ofLine " add f,3 2 1" = .ok i := by decide
  refine ⟨hi, by decide, (ofLine_text_eq_ok_iff.2 _ _ hi).2.2, fun h => ?_⟩
  have hfar := ((ofLine_text_eq_ok_iff.1 far).mp h).2
  exact absurd (hfar (.numbered 19) (by simp [far])) (by decide)

end Instruction

end HexAsm
