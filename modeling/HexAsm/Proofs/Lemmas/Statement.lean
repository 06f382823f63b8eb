import HexAsm.Proofs.Lemmas.Hex
import HexAsm.Proofs.Lemmas.Legal
import HexAsm.Proofs.Lemmas.Tokens

/-!
# Reading a line

One lemma for each stage: the mnemonic, the shape of the operands, the registers, the literal. A line is read as the
instruction of a layout whose mnemonic it starts with, or as a comment.
-/

namespace HexAsm

open HexAsm.Text

/-! ## Mnemonics -/

/-- A character below 128 can be checked case by case. -/
theorem forall_ascii {P : Char → Prop} (h : ∀ n < 128, P (Char.ofNat n)) {c : Char} (hc : c.toNat < 128) : P c := by
  have := h c.toNat hc
  rwa [Char.ofNat_toNat] at this

theorem ascii_of_toUpper {c : Char} (h : 'A' ≤ c.toUpper ∧ c.toUpper ≤ 'Z') : c.toNat < 128 := by
  by_cases hl : 'a'.val ≤ c.val ∧ c.val ≤ 'z'.val
  · have : c.toNat ≤ 'z'.toNat := hl.2
    exact Nat.lt_of_le_of_lt this (by decide)
  · have hu : c.toUpper = c := dif_neg hl
    rw [hu] at h
    have : c.toNat ≤ 'Z'.toNat := h.2
    exact Nat.lt_of_le_of_lt this (by decide)

theorem toUpper_eq_iff {c m : Char} (hm : 'A' ≤ m ∧ m ≤ 'Z') : c.toUpper = m ↔ c = m ∨ c = m.toLower := by
  constructor
  · rintro rfl
    exact forall_ascii (P := fun c => 'A' ≤ c.toUpper ∧ c.toUpper ≤ 'Z' → c = c.toUpper ∨ c = c.toUpper.toLower)
      (by decide) (ascii_of_toUpper hm) hm
  · have hm' : m.toNat < 128 := Nat.lt_of_le_of_lt (show m.toNat ≤ 'Z'.toNat from hm.2) (by decide)
    have := forall_ascii (P := fun m => 'A' ≤ m ∧ m ≤ 'Z' → m.toUpper = m ∧ m.toLower.toUpper = m)
      (by decide) hm' hm
    rintro (rfl | rfl)
    · exact this.1
    · exact this.2

theorem isAlphanum_of_toUpper {c : Char} (h : 'A' ≤ c.toUpper ∧ c.toUpper ≤ 'Z') : c.isAlphanum = true :=
  forall_ascii (P := fun c => 'A' ≤ c.toUpper ∧ c.toUpper ≤ 'Z' → c.isAlphanum = true)
    (by decide) (ascii_of_toUpper h) h

theorem Layout.ofMnemonic?_isAlphanum {head : List Char} {l : Layout} (h : ofMnemonic? head = some l) :
    ∀ c ∈ head, c.isAlphanum = true := by
  obtain ⟨hl, hm⟩ := ofMnemonic?_eq_some.mp h
  intro c hc
  refine isAlphanum_of_toUpper ((wellFormed_of_mem hl).mnemonic_upper _ ?_)
  rw [hm]
  exact List.mem_map_of_mem hc

theorem Layout.ofMnemonic?_ne_nil {head : List Char} {l : Layout} (h : ofMnemonic? head = some l) : head ≠ [] := by
  obtain ⟨hl, hm⟩ := ofMnemonic?_eq_some.mp h
  rintro rfl
  exact (wellFormed_of_mem hl).mnemonic_ne_nil hm

theorem Layout.ofMnemonic?_plain {head : List Char} {l : Layout} (h : ofMnemonic? head = some l) : Token.Plain head := by
  intro c hc
  have halpha := ofMnemonic?_isAlphanum h c hc
  exact ⟨isBlank_of_isAlphanum halpha, ne_of_isAlphanum halpha (by decide)⟩

theorem Layout.ofMnemonic?_solid {head : List Char} {l : Layout} (h : ofMnemonic? head = some l) : Solid head :=
  (ofMnemonic?_plain h).solid

/-! ## The shape of the operands -/

namespace Layout

theorem arityFault?_eq_none {l : Layout} {ts : List Token} :
    l.arityFault? ts = none ↔ l.arity.1 ≤ ts.length ∧ ts.length ≤ l.arity.2 := by
  simp [arityFault?]

theorem emptyFault?_eq_none {ts : List Token} : emptyFault? ts = none ↔ ∀ t ∈ ts, t.chars ≠ [] := by
  simp [emptyFault?]

theorem commaFault?_cons_eq_none {o : Operand} {os : List Operand} {t : Token} {ts : List Token} :
    commaFault? (o :: os) (t :: ts) = none ↔
      t.comma = (o.separator == .comma) ∧ commaFault? os ts = none := by
  rw [commaFault?]
  by_cases h : t.comma = (o.separator == .comma) <;> simp [h]

theorem commaFault?_nil_eq_none {ts : List Token} :
    commaFault? [] ts = none ↔ ∀ t ∈ ts, t.comma = false := by
  induction ts with
  | nil => simp [commaFault?]
  | cons t ts ih =>
      rw [commaFault?]
      cases h : t.comma <;> simp [h, ih]

theorem shapeFault?_eq_none {l : Layout} {ts : List Token} :
    l.shapeFault? ts = none ↔
      (l.arity.1 ≤ ts.length ∧ ts.length ≤ l.arity.2) ∧ (∀ t ∈ ts, t.chars ≠ []) ∧
        commaFault? l.operands ts = none := by
  simp only [shapeFault?, Option.or_eq_none_iff, arityFault?_eq_none, emptyFault?_eq_none]

/-- The first operand of a well-formed layout is not joined by a comma, and neither is a literal. -/
theorem WellFormed.first_comma {l : Layout} (hl : l.WellFormed) {ts : List Token}
    (h : commaFault? l.operands ts = none) : ∀ t ∈ ts.head?, t.comma = false := by
  intro t ht
  obtain ⟨ts, rfl⟩ : ∃ us, ts = t :: us := by
    cases ts with
    | nil => cases ht
    | cons u us => cases ht; exact ⟨us, rfl⟩
  cases hos : l.operands with
  | nil =>
      rw [hos] at h
      exact commaFault?_nil_eq_none.mp h t (by simp)
  | cons o os =>
      rw [hos] at h
      have ho := hl.first_space o (by simp [hos])
      rw [(commaFault?_cons_eq_none.mp h).1, ho]
      rfl

end Layout

/-! ## Registers and literals -/

theorem Hex.Stands.plain {c : Char} {v : Nat} (h : Stands c v) : Token.Plain [c] := by
  intro x hx
  rw [List.mem_singleton.mp hx]
  exact ⟨isBlank_of_isAlphanum h.isAlphanum, ne_of_isAlphanum h.isAlphanum (by decide)⟩

/-- The digit names the register: `1` to `D` a numbered one, `E` and `F` the two that can only be read. -/
inductive Register.Written : Register → Char → Prop
  | numbered {v c} : 1 ≤ v → v ≤ 13 → Hex.Stands c v → Written (.numbered (UInt8.ofNat v)) c
  | random {c} : Hex.Stands c 14 → Written .random c
  | immediate {c} : Hex.Stands c 15 → Written .immediate c

theorem Register.ofNibble?_ofNat {v : Nat} {c : Char} {r : Register} (hc : Hex.Stands c v)
    (h : ofNibble? (UInt8.ofNat v) = some r) : r.Written c := by
  have hv := hc.lt
  have hn : (UInt8.ofNat v).toNat = v := by simp only [UInt8.toNat_ofNat']; omega
  unfold ofNibble? at h
  split at h
  · rename_i he
    cases h
    rw [he] at hn
    exact .random (by rw [show 14 = v from hn]; exact hc)
  · split at h
    · rename_i he
      cases h
      rw [he] at hn
      exact .immediate (by rw [show 15 = v from hn]; exact hc)
    · split at h
      · rename_i he
        cases h
        have h₁ := UInt8.le_iff_toNat_le.mp he.1
        have h₂ := UInt8.le_iff_toNat_le.mp he.2
        rw [hn] at h₁ h₂
        exact .numbered h₁ h₂ hc
      · cases h

theorem Register.Written.ofDigit? {r : Register} {c : Char} (h : r.Written c) : Register.ofDigit? c = some r := by
  cases h with
  | numbered h₁ h₂ hc =>
      have all : ∀ n : Fin 16, 1 ≤ n.val → n.val ≤ 13 →
          ofNibble? (UInt8.ofNat n) = some (.numbered (UInt8.ofNat n)) := by decide
      simp [Register.ofDigit?, Hex.digit?_eq_some.mpr hc, all ⟨_, hc.lt⟩ h₁ h₂]
  | random hc => simp [Register.ofDigit?, Hex.digit?_eq_some.mpr hc, ofNibble?]
  | immediate hc => simp [Register.ofDigit?, Hex.digit?_eq_some.mpr hc, ofNibble?]

theorem Register.ofDigit?_eq_some {c : Char} {r : Register} : ofDigit? c = some r ↔ r.Written c := by
  refine ⟨fun h => ?_, Written.ofDigit?⟩
  obtain ⟨v, hv, hr⟩ := Option.bind_eq_some_iff.mp h
  exact ofNibble?_ofNat (Hex.digit?_eq_some.mp hv) hr

theorem Register.Written.inRange {r : Register} {c : Char} (h : r.Written c) : r.InRange := by
  obtain ⟨v, _, hr⟩ := Option.bind_eq_some_iff.mp h.ofDigit?
  exact inRange_of_ofNibble? hr

theorem Layout.readRegister_eq_ok {l : Layout} {t : Token} {r : Register} :
    l.readRegister t = .ok r ↔ ∃ c, t.chars = [c] ∧ r.Written c := by
  unfold readRegister
  split
  · rename_i c hc
    rw [hc]
    cases h : Register.ofDigit? c with
    | none => simp [← Register.ofDigit?_eq_some, h]
    | some r' => simp [← Register.ofDigit?_eq_some, h]
  · rename_i h
    simp only [reduceCtorEq, false_iff]
    rintro ⟨c, hc, _⟩
    exact h c hc

theorem Layout.readRegister_ne_nil {l : Layout} {ts : List Token} {rs : List Register}
    (h : ts.mapM l.readRegister = .ok rs) : ∀ t ∈ ts, t.chars ≠ [] := by
  intro t ht
  obtain ⟨r, _, hr⟩ := exists_right_of_forall₂ (mapM_eq_ok.mp h) ht
  obtain ⟨c, hc, _⟩ := readRegister_eq_ok.mp hr
  simp [hc]

/-- The text is a literal of one to four digits, with the given value. -/
structure Literal (v : UInt16) (cs : List Char) : Prop where
  ne_nil : cs ≠ []
  length_le : cs.length ≤ 4
  value : ∃ ds, List.Forall₂ Hex.Stands cs ds ∧ v.toNat = Nat.ofDigits 16 ds.reverse

theorem readLiteral_eq_ok {cs : List Char} {v : UInt16} : readLiteral cs = .ok v ↔ Literal v cs := by
  unfold readLiteral literalWidth
  split
  · rename_i hcs
    cases hn : Hex.number? cs with
    | none =>
        simp only [reduceCtorEq, false_iff]
        rintro ⟨-, -, ds, hds, -⟩
        rw [Hex.number?_eq_some.mpr ⟨ds, hds, rfl⟩] at hn
        cases hn
    | some n =>
        obtain ⟨ds, hds, rfl⟩ := Hex.number?_eq_some.mp hn
        -- Four digits fit into sixteen bits.
        have hlt : Nat.ofDigits 16 ds.reverse < 65536 :=
          Nat.lt_of_lt_of_le (Hex.ofDigits_lt hds) (Nat.pow_le_pow_right (by decide) hcs.2)
        have hto : (UInt16.ofNat (Nat.ofDigits 16 ds.reverse)).toNat = Nat.ofDigits 16 ds.reverse := by
          simp only [UInt16.toNat_ofNat']
          exact Nat.mod_eq_of_lt hlt
        simp only [Except.ok.injEq]
        constructor
        · rintro rfl
          exact ⟨hcs.1, hcs.2, ds, hds, hto⟩
        · rintro ⟨-, -, ds', hds', hv⟩
          have hn' := Hex.number?_eq_some.mpr ⟨ds', hds', rfl⟩
          rw [hn, Option.some.injEq, ← hv] at hn'
          apply UInt16.toNat_inj.mp
          rw [hto, hn']
  · rename_i hcs
    simp only [reduceCtorEq, false_iff]
    rintro ⟨h₁, h₂, -⟩
    exact hcs ⟨h₁, h₂⟩

theorem readLiteral_of_not {cs : List Char} (h : ¬ ∃ v, Literal v cs) :
    readLiteral cs = .error (.literal (String.ofList cs)) := by
  cases hr : readLiteral cs with
  | ok v => exact absurd ⟨v, readLiteral_eq_ok.mp hr⟩ h
  | error f =>
      unfold readLiteral at hr
      split at hr
      · split at hr
        · cases hr
        · exact hr.symm
      · exact hr.symm

/-! ## Lines -/

namespace Instruction

theorem ofTokens_eq_ok {l : Layout} (hl : l ∈ Layout.all) {ts : List Token} {i : Instruction} :
    ofTokens l ts = .ok i ↔
      i.op = l.operation ∧ (ts.take l.operands.length).mapM l.readRegister = .ok i.regs ∧
        (ts.drop l.operands.length).head?.mapM (fun t => readLiteral t.chars) = .ok i.literal ∧
        l.Obeyed i.regs i.literal := by
  have hlegal : ∀ regs literal, legal ⟨l.operation, regs, literal⟩ = .ok i ↔
      l.Obeyed regs literal ∧ i = ⟨l.operation, regs, literal⟩ := fun regs literal => by
    rw [legal_eq_ok, fault?_eq_none (i := ⟨l.operation, regs, literal⟩) (Layout.layout?_operation hl)]
  simp only [ofTokens, bind_eq_ok, hlegal]
  constructor
  · rintro ⟨regs, hregs, literal, hliteral, ho, rfl⟩
    exact ⟨rfl, hregs, hliteral, ho⟩
  · rintro ⟨hop, hregs, hliteral, ho⟩
    exact ⟨i.regs, hregs, i.literal, hliteral, ho, by rw [← hop]⟩

theorem ofOperands_eq_ok {l : Layout} {cs : List Char} {i : Instruction} :
    ofOperands l cs = .ok i ↔ l.shapeFault? (Token.scan cs) = none ∧ ofTokens l (Token.scan cs) = .ok i := by
  unfold ofOperands
  cases l.shapeFault? (Token.scan cs) <;> simp

/-- The text starts with a mnemonic, and the rest of it reads as operands up to its last character. -/
structure Split (cs : List Char) (l : Layout) (head rest : List Char) : Prop where
  eq : cs = head ++ rest
  mnemonic : Layout.ofMnemonic? head = some l
  breaks : Breaks rest
  last : ∀ c ∈ rest.getLast?, isBlank c = false

theorem Split.trimmed {cs head rest : List Char} {l : Layout} (h : Split cs l head rest) : Trimmed cs := by
  have hs := Layout.ofMnemonic?_solid h.mnemonic
  obtain ⟨c, head, rfl⟩ := List.exists_cons_of_ne_nil (Layout.ofMnemonic?_ne_nil h.mnemonic)
  rw [h.eq]
  refine ⟨fun x hx => ?_, fun x hx => ?_⟩
  · cases hx
    exact hs c (by simp)
  · exact last_append (hs.last_append (by simp) []) h.last x hx

theorem Split.not_comment {cs head rest : List Char} {l : Layout} (h : Split cs l head rest) :
    ¬ (cs = [] ∨ Line.isComment cs) := by
  have hletters := Layout.ofMnemonic?_isAlphanum h.mnemonic
  obtain ⟨c, head, rfl⟩ := List.exists_cons_of_ne_nil (Layout.ofMnemonic?_ne_nil h.mnemonic)
  have hc := hletters c (by simp)
  rw [Line.isComment, trimStart_of_head h.trimmed.1, h.eq, List.cons_append]
  rintro (h | h)
  · cases h
  · unfold Line.atMarker at h
    split at h <;> simp_all [Char.isAlphanum]

theorem Split.ofCode {cs head rest : List Char} {l : Layout} (h : Split cs l head rest) :
    Instruction.ofCode cs = ofOperands l rest := by
  have hhead : cs.takeWhile (!isBlank ·) = head := by
    rw [h.eq, (Layout.ofMnemonic?_solid h.mnemonic).takeWhile h.breaks]
  have hrest : cs.drop head.length = rest := by rw [h.eq, List.drop_left]
  simp only [Instruction.ofCode, hhead, h.mnemonic, hrest]

/-- A line that starts with a mnemonic, between blanks, is read as the operands after the mnemonic. -/
theorem Split.ofLine {s : String} {before cs after head rest : List Char} {l : Layout} (h : Split cs l head rest)
    (hb : Blanks before) (ha : Blanks after) (hs : s.toList = before ++ cs ++ after) :
    Instruction.ofLine s = ofOperands l rest := by
  have ht : trim s.toList = cs := by rw [hs, trim_eq hb ha h.trimmed]
  simp only [Instruction.ofLine, ht, if_neg h.not_comment, h.ofCode]

/-- A mnemonic and tokens of the right shape, between blanks, are read as the tokens. -/
theorem ofLine_of_spelled {s : String} {before head rest after : List Char} {l : Layout} {ts : List Token}
    (hm : Layout.ofMnemonic? head = some l) (hts : Token.Spelled ts rest) (hshape : l.shapeFault? ts = none)
    (hb : Blanks before) (ha : Blanks after) (hs : s.toList = before ++ (head ++ rest) ++ after) :
    Instruction.ofLine s = ofTokens l ts := by
  obtain ⟨-, hne, hcomma⟩ := Layout.shapeFault?_eq_none.mp hshape
  have hl := Layout.wellFormed_of_mem (Layout.ofMnemonic?_eq_some.mp hm).1
  have hfirst := hl.first_comma hcomma
  have hsplit : Split (head ++ rest) l head rest := ⟨rfl, hm, hts.breaks hfirst, hts.last hne⟩
  rw [hsplit.ofLine hb ha hs, ofOperands, hts.scan hne hfirst, hshape]

theorem split_of_ofCode {cs : List Char} {i : Instruction} (ht : Trimmed cs) (h : Instruction.ofCode cs = .ok i) :
    ∃ l head rest, Split cs l head rest ∧ ofOperands l rest = .ok i := by
  unfold Instruction.ofCode at h
  cases hm : Layout.ofMnemonic? (cs.takeWhile (!isBlank ·)) with
  | none => simp [hm] at h
  | some l =>
      simp only [hm, drop_takeWhile] at h
      refine ⟨l, _, _, ⟨List.takeWhile_append_dropWhile.symm, hm, breaks_dropWhile cs, fun c hc => ?_⟩, h⟩
      refine ht.2 c ?_
      have hc' : (cs.dropWhile (!isBlank ·)).getLast? = some c := hc
      rw [← List.takeWhile_append_dropWhile (p := (!isBlank ·)) (l := cs), List.getLast?_append, hc']
      rfl

/-- A line that is read as an instruction with a word starts with a mnemonic, between blanks. -/
theorem split_of_ofLine {s : String} {i : Instruction} (h : Instruction.ofLine s = .ok i) (hi : i.op ≠ .comment) :
    ∃ before cs after l head rest, Blanks before ∧ Blanks after ∧ s.toList = before ++ cs ++ after ∧
      Split cs l head rest ∧ ofOperands l rest = .ok i := by
  obtain ⟨before, after, hb, ha, hs, ht⟩ := exists_trim s.toList
  simp only [Instruction.ofLine] at h
  split at h
  · cases h
    exact absurd rfl hi
  · obtain ⟨l, head, rest, hsplit, ho⟩ := split_of_ofCode ht h
    exact ⟨before, _, after, l, head, rest, hb, ha, hs, hsplit, ho⟩

end Instruction

end HexAsm
