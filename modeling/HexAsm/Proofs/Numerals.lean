import HexAsm.Proofs.Lemmas.Canonical
import HexAsm.Proofs.Lemmas.Image

/-!
# Words and literals as numerals

A word is written with exactly eight hexadecimal digits and a literal with one to four. Reading takes such texts and no
others, and the number always fits into the word or the payload: a reader that checks the bound at each digit never
leaves it. Writing gives the digits in upper case, and what is written is read back.
-/

namespace HexAsm

namespace Hex

/-! ## Texts of digits -/

/-- One of the sixteen digits, a letter in either case. -/
def IsDigit (c : Char) : Prop := '0' ≤ c ∧ c ≤ '9' ∨ 'A' ≤ c ∧ c ≤ 'F' ∨ 'a' ≤ c ∧ c ≤ 'f'

instance : DecidablePred IsDigit := fun c =>
  inferInstanceAs (Decidable ('0' ≤ c ∧ c ≤ '9' ∨ 'A' ≤ c ∧ c ≤ 'F' ∨ 'a' ≤ c ∧ c ≤ 'f'))

theorem isDigit_iff {c : Char} : IsDigit c ↔ ∃ v, digit? c = some v := by
  unfold IsDigit digit?
  split
  · simp [*]
  · split
    · simp [*]
    · split <;> simp [*]

theorem forall_isDigit_iff {cs : List Char} : (∀ c ∈ cs, IsDigit c) ↔ ∃ n, number? cs = some n := by
  constructor
  · intro h
    obtain ⟨ds, hds⟩ := exists_forall₂ fun c hc => isDigit_iff.mp (h c hc)
    exact ⟨number ds, by rw [number?, mapM_eq_some.mpr hds, Option.map_some]⟩
  · rintro ⟨n, hn⟩ c hc
    obtain ⟨ds, hds, -⟩ := number?_eq_some.mp hn
    obtain ⟨v, -, hv⟩ := exists_right_of_forall₂ hds hc
    exact isDigit_iff.mpr ⟨v, digit?_of_stands hv⟩

theorem IsDigit.utf8Size {c : Char} (h : IsDigit c) : c.utf8Size = 1 := by
  apply Char.utf8Size_eq_one_iff.mpr
  rcases h with h | h | h
  · exact UInt32.le_trans h.2 (by decide)
  · exact UInt32.le_trans h.2 (by decide)
  · exact UInt32.le_trans h.2 (by decide)

/-- Digits take one byte each. -/
theorem utf8ByteSize_of_isDigit {s : String} (h : ∀ c ∈ s.toList, IsDigit c) : s.utf8ByteSize = s.length := by
  have hchars : ∀ cs : List Char, (∀ c ∈ cs, IsDigit c) → (String.ofList cs).utf8ByteSize = cs.length := by
    intro cs hcs
    induction cs with
    | nil => rfl
    | cons c cs ih =>
        obtain ⟨hc, hcs⟩ := List.forall_mem_cons.mp hcs
        rw [String.ofList_cons, String.utf8ByteSize_append, String.utf8ByteSize_singleton, hc.utf8Size, ih hcs,
          List.length_cons, Nat.add_comm]
  have := hchars s.toList h
  rwa [String.ofList_toList, String.length_toList] at this

/-! ## Numbers below a bound -/

/-- The number with one digit more, if it stays below the bound. -/
def extend? (bound n : Nat) (c : Char) : Option Nat :=
  (digit? c).bind fun d => if 16 * n + d < bound then some (16 * n + d) else none

/-- The number below a bound that a text stands for: one digit or more, and perhaps a plus sign before them. -/
def bounded? (bound : Nat) (cs : List Char) : Option Nat :=
  let ds := if cs.head? = some '+' then cs.tail else cs
  if ds = [] then none else ds.foldlM (extend? bound) 0

theorem extend?_eq_some {bound n m : Nat} {c : Char} :
    extend? bound n c = some m ↔ ∃ d, digit? c = some d ∧ 16 * n + d = m ∧ m < bound := by
  rw [extend?, Option.bind_eq_some_iff]
  refine exists_congr fun d => and_congr_right fun _ => ?_
  split
  · rw [Option.some.injEq]
    exact ⟨fun h => ⟨h, h ▸ ‹_›⟩, And.left⟩
  · simp only [reduceCtorEq, false_iff]
    rintro ⟨rfl, h⟩
    contradiction

theorem foldlM_extend?_eq_some {bound : Nat} (hb : 0 < bound) {cs : List Char} {n : Nat} :
    cs.foldlM (extend? bound) 0 = some n ↔ number? cs = some n ∧ n < bound := by
  induction cs using List.reverseRecOn generalizing n with
  | nil =>
      constructor
      · rintro ⟨⟩
        exact ⟨rfl, hb⟩
      · rintro ⟨⟨⟩, -⟩
        rfl
  | append_singleton cs c ih =>
      simp only [List.foldlM_append, List.foldlM_cons, List.foldlM_nil, bind_pure, Option.bind_eq_bind,
        Option.bind_eq_some_iff, ih, extend?_eq_some, number?_concat, Option.map_eq_some_iff]
      constructor
      · rintro ⟨m, ⟨hm, -⟩, d, hd, rfl, hlt⟩
        exact ⟨⟨m, hm, d, hd, rfl⟩, hlt⟩
      · -- The number before the last digit is no greater than the whole, so the bound holds on the way too.
        rintro ⟨⟨m, hm, d, hd, rfl⟩, hlt⟩
        exact ⟨m, ⟨hm, by omega⟩, d, hd, rfl, hlt⟩

theorem bounded?_eq_some {bound : Nat} (hb : 0 < bound) {cs : List Char} {n : Nat} :
    bounded? bound cs = some n ↔ ∃ ds, ds ≠ [] ∧ (cs = ds ∨ cs = '+' :: ds) ∧ number? ds = some n ∧ n < bound := by
  have hplus : number? cs = some n → cs.head? ≠ some '+' := by
    intro hn hhead
    have hdigit := forall_isDigit_iff.mpr ⟨n, hn⟩ '+' (List.mem_of_head? hhead)
    exact absurd hdigit (by decide)
  simp only [bounded?, Option.ite_none_left_eq_some, foldlM_extend?_eq_some hb]
  split
  · obtain ⟨ds, rfl⟩ := List.head?_eq_some_iff.mp ‹_›
    constructor
    · rintro ⟨hne, hn⟩
      exact ⟨ds, hne, .inr rfl, hn⟩
    · rintro ⟨ds', hne, rfl | heq, hn⟩
      · exact absurd rfl (hplus hn.1)
      · cases heq
        exact ⟨hne, hn⟩
  · rename_i hhead
    constructor
    · rintro ⟨hne, hn⟩
      exact ⟨cs, hne, .inl rfl, hn⟩
    · rintro ⟨ds, hne, rfl | rfl, hn⟩
      · exact ⟨hne, hn⟩
      · exact absurd rfl hhead

example : bounded? 256 "+fF".toList = some 255 ∧ bounded? 256 "100".toList = none ∧ bounded? 256 "+".toList = none := by
  decide

end Hex

/-! ## Words -/

namespace Word

theorem Written.number? {w : Word} {cs : List Char} (h : w.Written cs) : Hex.number? cs = some w.raw.toNat :=
  Hex.number?_eq_some.mpr h.value

theorem ofText_eq_ok {s : String} {w : Word} : ofText s = .ok w ↔ w.Written s.toList := by
  refine ⟨fun h => ?_, fun h => by simpa using h.ofText⟩
  unfold ofText width at h
  split at h
  · rename_i hlen
    rw [← String.length_toList] at hlen
    split at h
    · rename_i n hn
      cases h
      have hlt := Hex.number?_lt hn
      rw [hlen] at hlt
      have hto : (UInt32.ofNat n).toNat = n := Nat.mod_eq_of_lt hlt
      exact ⟨hlen, Hex.number?_eq_some.mp (by rw [hn, hto])⟩
    · cases h
  · cases h

theorem exists_ofText_iff {s : String} :
    (∃ w, ofText s = .ok w) ↔ s.length = 8 ∧ ∀ c ∈ s.toList, Hex.IsDigit c := by
  rw [Hex.forall_isDigit_iff]
  constructor
  · rintro ⟨w, hw⟩
    have hwritten := ofText_eq_ok.mp hw
    exact ⟨by rw [← String.length_toList, hwritten.length_eq], _, hwritten.number?⟩
  · rintro ⟨hlen, n, hn⟩
    exact ⟨⟨UInt32.ofNat n⟩, by simp [ofText, width, hlen, hn]⟩

theorem Written.bounded?_eq {w : Word} {cs : List Char} (h : w.Written cs) :
    Hex.bounded? UInt32.size cs = some w.raw.toNat :=
  (Hex.bounded?_eq_some (by decide)).mpr ⟨cs, h.ne_nil, .inl rfl, h.number?, w.raw.toNat_lt⟩

/-- Any spelling of a word in upper case is the text of the word. -/
theorem text_eq_toUpper {s : String} {w : Word} (h : ofText s = .ok w) : w.text = s.toUpper := by
  have hwritten := ofText_eq_ok.mp h
  have hdigits := Hex.digits_of_number? hwritten.number?
  rw [hwritten.length_eq] at hdigits
  rw [text, String.toUpper, ← String.toList_inj, String.toList_ofList, String.toList_map]
  exact hdigits

theorem text_injective {v w : Word} (h : v.text = w.text) : v = w := by
  have hv := ofText_text v
  rw [h, ofText_text] at hv
  exact (Except.ok.inj hv).symm

theorem ofText_eq_error {s : String} {f : WordFault} (h : ofText s = .error f) :
    f = if s.length = 8 then .digits s else .width s := by
  unfold ofText width at h
  split at h
  · rw [if_pos ‹_›]
    split at h
    · cases h
    · exact (Except.error.inj h).symm
  · rw [if_neg ‹_›]
    exact (Except.error.inj h).symm

/-- A text is read as a word exactly if it is eight digits and in upper case is the text of the word. The text of a word
is eight digits in upper case and is read back. Any other text is refused, for its width if it is not eight characters
long, else for a character that is no digit; eight digits never leave the bound of a word. -/
theorem ofText_iff_text_toUpper :
    (∀ (s : String) (w : Word),
        ofText s = .ok w ↔ (s.length = 8 ∧ ∀ c ∈ s.toList, Hex.IsDigit c) ∧ w.text = s.toUpper) ∧
      (∀ w : Word, w.text.length = 8 ∧ (∀ c ∈ w.text.toList, c ∈ Hex.alphabet) ∧ ofText w.text = .ok w) ∧
      (∀ (s : String) (f : WordFault), ofText s = .error f →
        (f = .width s ↔ s.length ≠ 8) ∧ (f = .digits s ↔ s.length = 8) ∧
          f.message = "malformed word `" ++ s ++
            if s.length = 8 then "`: contains a non-hex character" else "`: expected exactly 8 hex digits") ∧
      ∀ s : String, (s.length = 8 ∧ ∀ c ∈ s.toList, Hex.IsDigit c) ↔
        ∃ w, ofText s = .ok w ∧ Hex.bounded? UInt32.size s.toList = some w.raw.toNat := by
  refine ⟨fun s w => ⟨fun h => ⟨exists_ofText_iff.mp ⟨w, h⟩, text_eq_toUpper h⟩, ?_⟩, fun w => ?_, ?_, fun s => ?_⟩
  · rintro ⟨hs, htext⟩
    obtain ⟨v, hv⟩ := exists_ofText_iff.mpr hs
    rw [hv, text_injective (htext.trans (text_eq_toUpper hv).symm)]
  · refine ⟨?_, fun c hc => ?_, ofText_text w⟩
    · rw [text, String.length_ofList, Hex.digits_length, width]
    · rw [text, String.toList_ofList] at hc
      exact Hex.mem_alphabet_of_mem_digits hc
  · intro s f h
    rw [ofText_eq_error h]
    by_cases hlen : s.length = 8
    · rw [if_pos hlen, if_pos hlen]
      exact ⟨by simp [hlen], by simp [hlen], rfl⟩
    · rw [if_neg hlen, if_neg hlen]
      exact ⟨by simp [hlen], by simp [hlen], rfl⟩
  · rw [← exists_ofText_iff]
    exact exists_congr fun w => ⟨fun h => ⟨h, (ofText_eq_ok.mp h).bounded?_eq⟩, And.left⟩

/-- Eight characters, one of them a sign, and four characters of two bytes each. -/
theorem ofText_iff_text_toUpper_refused :
    ofText "+0AB0000" = .error (.digits "+0AB0000") ∧
      (WordFault.digits "+0AB0000").message = "malformed word `+0AB0000`: contains a non-hex character" ∧
      ofText "éééé" = .error (.width "éééé") ∧
      (WordFault.width "éééé").message = "malformed word `éééé`: expected exactly 8 hex digits" := by
  have hsign : ofText "+0AB0000" = .error (.digits "+0AB0000") := by decide
  have hshort : ofText "éééé" = .error (.width "éééé") := by decide
  exact ⟨hsign, (ofText_iff_text_toUpper.2.2.1 _ _ hsign).2.2, hshort, (ofText_iff_text_toUpper.2.2.1 _ _ hshort).2.2⟩

end Word

/-! ## Literals -/

theorem literal_iff {v : UInt16} {cs : List Char} :
    Literal v cs ↔ cs ≠ [] ∧ cs.length ≤ 4 ∧ Hex.number? cs = some v.toNat := by
  rw [Hex.number?_eq_some]
  exact ⟨fun h => ⟨h.ne_nil, h.length_le, h.value⟩, fun ⟨hne, hlen, hv⟩ => ⟨hne, hlen, hv⟩⟩

theorem exists_literal_iff {cs : List Char} :
    (∃ v, Literal v cs) ↔ cs ≠ [] ∧ cs.length ≤ 4 ∧ ∀ c ∈ cs, Hex.IsDigit c := by
  simp only [literal_iff, Hex.forall_isDigit_iff]
  constructor
  · rintro ⟨v, hne, hlen, hn⟩
    exact ⟨hne, hlen, _, hn⟩
  · rintro ⟨hne, hlen, n, hn⟩
    have hlt : n < 65536 :=
      Nat.lt_of_lt_of_le (Hex.number?_lt hn) (Nat.pow_le_pow_right (by decide) hlen)
    have hto : (UInt16.ofNat n).toNat = n := Nat.mod_eq_of_lt hlt
    exact ⟨UInt16.ofNat n, hne, hlen, by rw [hto, hn]⟩

/-- For digits it does not matter whether a text is measured in characters or in bytes. -/
theorem exists_literal_iff_bytes {s : String} :
    (∃ v, Literal v s.toList) ↔ s ≠ "" ∧ s.utf8ByteSize ≤ 4 ∧ ∀ c ∈ s.toList, Hex.IsDigit c := by
  rw [exists_literal_iff, ne_eq, String.toList_eq_nil_iff, String.length_toList]
  refine and_congr_right fun _ => and_congr_left fun hdigits => ?_
  rw [Hex.utf8ByteSize_of_isDigit hdigits]

theorem Literal.bounded?_eq {v : UInt16} {cs : List Char} (h : Literal v cs) :
    Hex.bounded? UInt16.size cs = some v.toNat :=
  (Hex.bounded?_eq_some (by decide)).mpr ⟨cs, h.ne_nil, .inl rfl, (literal_iff.mp h).2.2, v.toNat_lt⟩

theorem literal_zeros {v : UInt16} {cs : List Char} {zeros : Nat} (hne : cs ≠ []) (hlen : zeros + cs.length ≤ 4) :
    Literal v (List.replicate zeros '0' ++ cs) ↔ Literal v cs := by
  have hlen' : cs.length ≤ 4 := by omega
  rw [literal_iff, literal_iff, Hex.number?_zeros]
  simp [hne, hlen, hlen']

/-- The text of an instruction with a literal ends in the digits of the literal. -/
theorem Instruction.text_eq_literal {i : Instruction} {v : UInt16} (hi : i.op ≠ .comment) (hv : i.literal = some v) :
    ∃ front, i.text = front ++ " " ++ String.ofList (Hex.digits 4 v.toNat) := by
  cases hl : i.op.layout? with
  | none => exact absurd (Operation.layout?_eq_none.mp hl) hi
  | some l =>
      refine ⟨String.ofList (l.mnemonic.toList ++ operandChars l.operands i.regs), ?_⟩
      rw [text, chars_eq hl, hv, ← String.toList_inj]
      simp [literalChars]

/-- A text is read as a literal exactly if it is one to four digits, and the value is that of the digits; any other text
is the fault. The digits fit into four bytes and never leave the bound of a payload. Zeros before them change nothing as
long as there are four digits at most, and the digits that end the text of an instruction are read as its literal. -/
theorem readLiteral_iff_literal :
    (∀ (s : String) (v : UInt16), readLiteral s.toList = .ok v ↔ Literal v s.toList) ∧
      (∀ s : String, (∀ v, ¬ Literal v s.toList) → readLiteral s.toList = .error (.literal s)) ∧
      (∀ s : String, (s ≠ "" ∧ s.utf8ByteSize ≤ 4 ∧ ∀ c ∈ s.toList, Hex.IsDigit c) ↔
        ∃ v, readLiteral s.toList = .ok v ∧ Hex.bounded? UInt16.size s.toList = some v.toNat) ∧
      (∀ (s : String) (zeros : Nat) (v : UInt16), s ≠ "" → zeros + s.length ≤ 4 →
        (readLiteral (List.replicate zeros '0' ++ s.toList) = .ok v ↔ readLiteral s.toList = .ok v)) ∧
      ∀ (i : Instruction) (v : UInt16), i.op ≠ .comment → i.literal = some v →
        ∃ front digits, i.text = front ++ " " ++ digits ∧ digits.length = 4 ∧
          (∀ c ∈ digits.toList, c ∈ Hex.alphabet) ∧ readLiteral digits.toList = .ok v := by
  refine ⟨fun s v => readLiteral_eq_ok, fun s h => ?_, fun s => ?_, fun s zeros v hne hlen => ?_, fun i v hi hv => ?_⟩
  · rw [readLiteral_of_not (not_exists.mpr h), String.ofList_toList]
  · rw [← exists_literal_iff_bytes]
    exact exists_congr fun v => ⟨fun h => ⟨readLiteral_eq_ok.mpr h, h.bounded?_eq⟩, fun h => readLiteral_eq_ok.mp h.1⟩
  · rw [readLiteral_eq_ok, readLiteral_eq_ok]
    exact literal_zeros (by simpa using hne) (by rwa [String.length_toList])
  · obtain ⟨front, htext⟩ := Instruction.text_eq_literal hi hv
    refine ⟨front, _, htext, ?_, ?_, ?_⟩
    · rw [String.length_ofList, Hex.digits_length]
    · rw [String.toList_ofList]
      exact fun c hc => Hex.mem_alphabet_of_mem_digits hc
    · rw [String.toList_ofList]
      exact readLiteral_eq_ok.mpr (literal_digits v)

/-- A sign is refused, two zeros before two digits change nothing, and a printed literal is read back. -/
theorem readLiteral_iff_literal_padded :
    readLiteral "+12".toList = .error (.literal "+12") ∧
      readLiteral (List.replicate 2 '0' ++ "a5".toList) = .ok 0xA5 ∧
      ∃ front digits, (⟨.jump, [], some 0xA5⟩ : Instruction).text = front ++ " " ++ digits ∧ digits.length = 4 ∧
        (∀ c ∈ digits.toList, c ∈ Hex.alphabet) ∧ readLiteral digits.toList = .ok 0xA5 := by
  obtain ⟨hread, hfault, -, hzeros, htext⟩ := readLiteral_iff_literal
  refine ⟨hfault "+12" fun v hv => ?_, ?_, htext _ _ (by decide) rfl⟩
  · have hok := (hread "+12" v).mpr hv
    have herror : readLiteral "+12".toList = .error (.literal "+12") := by decide
    rw [herror] at hok
    cases hok
  · exact (hzeros "a5" 2 0xA5 (by decide) (by decide)).mpr (by decide)

end HexAsm
