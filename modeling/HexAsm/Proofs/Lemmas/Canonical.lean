import HexAsm.Proofs.Lemmas.Tidy
import HexAsm.Proofs.Lemmas.Written

/-!
# Canonical text

The canonical text of an instruction is tidy, and it is read as the instruction, if that is legal.
-/

namespace HexAsm

open HexAsm.Text

/-! ## The parts of the text -/

/-- The character that is written for a separator. -/
def Separator.char : Separator → Char
  | .space => ' '
  | .comma => ','

theorem Separator.written_char (s : Separator) : s.Written [s.char] := by
  cases s with
  | space => exact .space (by simp) (by simp [Blanks, Separator.char]; decide)
  | comma => exact .comma

theorem Layout.WellFormed.separators_eq {l : Layout} (hl : l.WellFormed) :
    l.separators = l.operands.map (·.separator.char) := by
  cases hos : l.operands with
  | nil => simp [separators, hos]
  | cons o os =>
      have ho := hl.first_space o (by simp [hos])
      simp only [separators, hos, List.map_cons, ho, List.cons.injEq]
      refine ⟨rfl, List.map_congr_left fun x _ => ?_⟩
      cases hx : x.separator <;> simp [Separator.char]

theorem Register.InRange.written_digit {r : Register} (h : r.InRange) : r.Written r.digit := by
  have hlt := ofNibble?_lt h
  apply ofDigit?_eq_some.mp
  simp only [ofDigit?, digit, Hex.digit?_digit hlt, Option.bind_some, UInt8.ofNat_toNat]
  exact h

/-- The digits of registers behind their separators. -/
def operandChars (os : List Operand) (regs : List Register) : List Char :=
  (os.zip regs).flatMap fun p => [p.1.separator.char, p.2.digit]

theorem operandsWritten_operandChars {os : List Operand} {regs : List Register} (hc : regs.length = os.length)
    (hr : ∀ r ∈ regs, r.InRange) : OperandsWritten os regs (operandChars os regs) := by
  induction os generalizing regs with
  | nil =>
      rw [List.length_eq_zero_iff.mp hc]
      exact .nil
  | cons o os ih =>
      cases regs with
      | nil => simp at hc
      | cons r regs =>
          have ih := ih (by simpa using hc) (fun x hx => hr x (by simp [hx]))
          exact .cons (Separator.written_char _) (hr r (by simp)).written_digit ih

/-- The literal behind a space, if there is one. -/
def literalChars : Option UInt16 → List Char
  | some v => ' ' :: Hex.digits 4 v.toNat
  | none => []

theorem literal_digits (v : UInt16) : Literal v (Hex.digits 4 v.toNat) := by
  have hlen := Hex.digits_length 4 v.toNat
  have hne : Hex.digits 4 v.toNat ≠ [] := fun h => by simp [h] at hlen
  apply readLiteral_eq_ok.mp
  simp [readLiteral, literalWidth, hlen, hne, Hex.number?_digits]

theorem literalWritten_literalChars {rule : PayloadRule} {literal : Option UInt16}
    (habsent : rule = .forbidden → literal = none) (hpresent : rule = .address ∨ rule = .value → literal ≠ none) :
    LiteralWritten rule literal (literalChars literal) := by
  cases literal with
  | none => exact .absent (by cases rule <;> simp at hpresent ⊢)
  | some v =>
      refine .present (g := [' ']) (fun h => by simpa using habsent h) (by simp) ?_ (literal_digits v)
      simp [Blanks]
      decide

namespace Instruction

theorem chars_eq {i : Instruction} {l : Layout} (hl : i.op.layout? = some l) :
    i.chars = l.mnemonic.toList ++ operandChars l.operands i.regs ++ literalChars i.literal := by
  have hwf := Layout.wellFormed_of_mem (Operation.layout?_eq_some.mp hl).1
  simp only [chars, hl, hwf.separators_eq, operandChars, List.zip_map_left, List.flatMap_map]
  cases i.literal <;> rfl

/-! ## Reading the text -/

theorem mnemonicWritten_mnemonic (l : Layout) : MnemonicWritten l l.mnemonic.toList :=
  List.forall₂_same.mpr fun _ _ => .inl rfl

/-- The instruction has registers of the machine, as many as the layout has operands, and a literal where the layout
asks for one. -/
structure Fits (i : Instruction) (l : Layout) : Prop where
  layout : i.op.layout? = some l
  count : i.regs.length = l.operands.length
  inRange : i.InRange
  literal_absent : l.payload = .forbidden → i.literal = none
  literal_present : l.payload = .address ∨ l.payload = .value → i.literal ≠ none

/-- The text of an instruction that fits its layout is read as the instruction, if that is legal. -/
theorem Fits.ofLine_text {i : Instruction} {l : Layout} (h : i.Fits l) : ofLine i.text = i.legal := by
  obtain ⟨hm, hop⟩ := Operation.layout?_eq_some.mp h.layout
  have hs : i.text.toList =
      [] ++ (l.mnemonic.toList ++ operandChars l.operands i.regs ++ literalChars i.literal) ++ [] := by
    simp [text, chars_eq h.layout]
  rw [ofLine_of_parts hm (mnemonicWritten_mnemonic l) (operandsWritten_operandChars h.count h.inRange)
    (literalWritten_literalChars h.literal_absent h.literal_present) (by simp [Blanks]) (by simp [Blanks]) hs, hop]

/-! ## The text is tidy -/

/-- The tokens of the operands and the literal. -/
def tokens (l : Layout) (i : Instruction) : List Token :=
  (l.operands.zip i.regs).map (fun p => ⟨[p.2.digit], p.1.separator == .comma⟩) ++
    i.literal.toList.map fun v => ⟨Hex.digits 4 v.toNat, false⟩

theorem chars_eq_spelling {i : Instruction} {l : Layout} (hl : i.op.layout? = some l) :
    i.chars = l.mnemonic.toList ++ Line.spelling (tokens l i) := by
  rw [chars_eq hl, Line.spelling, tokens, List.flatMap_append, List.append_assoc]
  congr 2
  · simp only [operandChars, List.flatMap_map]
    congr 1
    funext p
    cases p.1.separator <;> rfl
  · cases i.literal <;> simp [literalChars]

theorem mem_chars {i : Instruction} {c : Char} (h : c ∈ i.chars) : c.isAlphanum = true ∨ c = ' ' ∨ c = ',' := by
  cases hl : i.op.layout? with
  | none => simp [chars, hl] at h
  | some l =>
      have hm := (Operation.layout?_eq_some.mp hl).1
      rw [chars_eq hl] at h
      rcases List.mem_append.mp h with h | h
      · rcases List.mem_append.mp h with h | h
        · exact .inl (Layout.mnemonic_isAlphanum hm c h)
        · obtain ⟨p, _, hp⟩ := List.mem_flatMap.mp h
          simp only [List.mem_cons, List.not_mem_nil, or_false] at hp
          rcases hp with rfl | rfl
          · cases p.1.separator
            · exact .inr (.inl rfl)
            · exact .inr (.inr rfl)
          · obtain ⟨v, hv⟩ := Hex.stands_digit p.2.nibble.toNat
            exact .inl hv.isAlphanum
      · cases hlit : i.literal with
        | none => simp [hlit, literalChars] at h
        | some v =>
            simp only [hlit, literalChars, List.mem_cons] at h
            rcases h with rfl | h
            · exact .inr (.inl rfl)
            · obtain ⟨d, hd⟩ := Hex.stands_of_mem_digits h
              exact .inl hd.isAlphanum

theorem isWord_of_mem_tokens {i : Instruction} {l : Layout} : ∀ t ∈ tokens l i, Line.IsWord t := by
  intro t ht
  rcases List.mem_append.mp ht with ht | ht
  · obtain ⟨p, _, rfl⟩ := List.mem_map.mp ht
    obtain ⟨v, hv⟩ := Hex.stands_digit p.2.nibble.toNat
    exact ⟨by simp, hv.plain⟩
  · obtain ⟨v, _, rfl⟩ := List.mem_map.mp ht
    exact ⟨(literal_digits v).ne_nil, (literal_digits v).plain⟩

theorem tokens_first {i : Instruction} {l : Layout} (hl : l.WellFormed) (hc : i.regs.length = l.operands.length) :
    ∀ t ∈ (tokens l i).head?, t.comma = false := by
  intro t ht
  cases hos : l.operands with
  | nil =>
      cases hlit : i.literal <;> simp [tokens, hos, hlit] at ht
      rw [← ht]
  | cons o os =>
      cases hregs : i.regs with
      | nil => simp [hos, hregs] at hc
      | cons r regs =>
          have ho := hl.first_space o (by simp [hos])
          simp [tokens, hos, hregs, ho] at ht
          rw [← ht]
          rfl

theorem Fits.tidy_chars {i : Instruction} {l : Layout} (h : i.Fits l) : Line.tidy i.chars = i.chars := by
  have hm := (Operation.layout?_eq_some.mp h.layout).1
  have hwf := Layout.wellFormed_of_mem hm
  have hmark : ∀ c ∈ i.chars, c ≠ ';' ∧ c ≠ '#' ∧ c ≠ '/' := by
    intro c hc
    rcases mem_chars hc with h | rfl | rfl
    · exact ⟨ne_of_isAlphanum h (by decide), ne_of_isAlphanum h (by decide), ne_of_isAlphanum h (by decide)⟩
    · decide
    · decide
  have hplain : Token.Plain l.mnemonic.toList := by
    intro c hc
    have h := Layout.mnemonic_isAlphanum hm c hc
    exact ⟨isBlank_of_isAlphanum h, ne_of_isAlphanum h (by decide)⟩
  rw [chars_eq_spelling h.layout] at hmark ⊢
  exact Line.tidy_spelling hwf.mnemonic_ne_nil hplain isWord_of_mem_tokens (tokens_first hwf h.count) hmark

end Instruction

end HexAsm
