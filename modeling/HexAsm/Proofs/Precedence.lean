import HexAsm.Proofs.Canonical

/-!
# The order of faults

A line may break several rules, but one fault is told of it. The mnemonic is judged first, then the shape of the
operands, then the registers from the left, then the literal, and the rules of the operation come last.
-/

namespace HexAsm

open HexAsm.Text

/-! ## Verdicts -/

/-- What is told of a line, apart from its word and the reason why its operands are malformed. -/
inductive Verdict where
  | silent
  | accepted
  | unknownMnemonic (name : String)
  | malformedOperands (mnemonic : String)
  | invalidRegister (token : String)
  | invalidLiteral (token : String)
  deriving DecidableEq

def LineFault.verdict : LineFault → Verdict
  | .unknownMnemonic name => .unknownMnemonic name
  | .operands mnemonic _ => .malformedOperands mnemonic
  | .register token => .invalidRegister token
  | .literal token => .invalidLiteral token

def Verdict.ofResult : Except LineFault (Option Word) → Verdict
  | .ok none => .silent
  | .ok (some _) => .accepted
  | .error f => f.verdict

/-- The token is the digit of the register. -/
def Token.Names (t : Token) (r : Register) : Prop := ∃ c, t.chars = [c] ∧ r.Written c

/-- The token is the leftmost that names no register. -/
def Token.FirstUnnamed (ts : List Token) (t : Token) : Prop :=
  ∃ before after, ts = before ++ t :: after ∧ (∀ u ∈ before, ∃ r, u.Names r) ∧ ¬ ∃ r, t.Names r

namespace Layout

/-- The tokens are as many as the layout takes, none is empty, and the commas stand where the layout has them. -/
structure Shaped (l : Layout) (ts : List Token) : Prop where
  count : l.arity.1 ≤ ts.length ∧ ts.length ≤ l.arity.2
  full : ∀ t ∈ ts, t.chars ≠ []
  commas : ∀ (k : Nat) (t : Token), ts[k]? = some t →
    (t.comma = true ↔ ∃ o, l.operands[k]? = some o ∧ o.separator = .comma)

/-- The tokens name the registers, and the one after them, if there is one, is the literal. -/
structure Reads (l : Layout) (ts : List Token) (regs : List Register) (literal : Option UInt16) : Prop where
  registers : List.Forall₂ Token.Names (ts.take l.operands.length) regs
  literal : Option.Rel (fun t v => Literal v t.chars) ts[l.operands.length]? literal

/-- What is told of the operands, stage by stage. -/
inductive Judges (l : Layout) (ts : List Token) : Verdict → Prop
  | misshapen : ¬ l.Shaped ts → l.Judges ts (.malformedOperands l.mnemonic)
  | longRegister {t} : l.Shaped ts → Token.FirstUnnamed (ts.take l.operands.length) t → 1 < t.chars.length →
      l.Judges ts (.malformedOperands l.mnemonic)
  | noRegister {t} : l.Shaped ts → Token.FirstUnnamed (ts.take l.operands.length) t → t.chars.length = 1 →
      l.Judges ts (.invalidRegister t.text)
  | noLiteral {regs t} : l.Shaped ts → List.Forall₂ Token.Names (ts.take l.operands.length) regs →
      ts[l.operands.length]? = some t → (¬ ∃ v, Literal v t.chars) → l.Judges ts (.invalidLiteral t.text)
  | unruly {regs literal} : l.Shaped ts → l.Reads ts regs literal → ¬ l.Obeyed regs literal →
      l.Judges ts (.malformedOperands l.mnemonic)
  | accepted {regs literal} : l.Shaped ts → l.Reads ts regs literal → l.Obeyed regs literal → l.Judges ts .accepted

end Layout

/-- The line up to its first blank, after those it starts with. -/
def Line.head (cs : List Char) : List Char := (trim cs).takeWhile (!isBlank ·)

/-- The line after its head. -/
def Line.rest (cs : List Char) : List Char := (trim cs).dropWhile (!isBlank ·)

/-- What is told of a line, stage by stage. -/
inductive Line.Judged (cs : List Char) : Verdict → Prop
  | silent : Line.Silent cs → Judged cs .silent
  | unknown : ¬ Line.Silent cs → (∀ l ∈ Layout.all, ¬ MnemonicWritten l (head cs)) →
      Judged cs (.unknownMnemonic (String.ofList (head cs)))
  | known {l ts v} : ¬ Line.Silent cs → l ∈ Layout.all → MnemonicWritten l (head cs) → Token.Grouped ts (rest cs) →
      l.Judges ts v → Judged cs v

/-! ## The shape -/

namespace Layout

theorem commaFault?_eq_none {os : List Operand} {ts : List Token} :
    commaFault? os ts = none ↔
      ∀ (k : Nat) (t : Token), ts[k]? = some t → (t.comma = true ↔ ∃ o, os[k]? = some o ∧ o.separator = .comma) := by
  induction os generalizing ts with
  | nil =>
      rw [commaFault?_nil_eq_none]
      constructor
      · intro h k t hk
        simp [h t (List.mem_of_getElem? hk)]
      · intro h t ht
        obtain ⟨k, hk⟩ := List.mem_iff_getElem?.mp ht
        simpa using h k t hk
  | cons o os ih =>
      cases ts with
      | nil => simp [commaFault?]
      | cons t ts =>
          rw [commaFault?_cons_eq_none, ih]
          constructor
          · rintro ⟨hfirst, hrest⟩ k u hk
            cases k with
            | zero =>
                cases hk
                simp [hfirst]
            | succ k => exact hrest k u hk
          · intro h
            have hfirst := h 0 t rfl
            exact ⟨Bool.eq_iff_iff.mpr (by simpa using hfirst), fun k u hk => h (k + 1) u hk⟩

theorem shapeFault?_eq_none_iff {l : Layout} {ts : List Token} : l.shapeFault? ts = none ↔ l.Shaped ts := by
  rw [shapeFault?_eq_none, commaFault?_eq_none]
  exact ⟨fun ⟨hcount, hfull, hcommas⟩ => ⟨hcount, hfull, hcommas⟩, fun h => ⟨h.count, h.full, h.commas⟩⟩

end Layout

/-! ## The contents -/

namespace Layout

theorem readRegister_of_long {l : Layout} {t : Token} (h : 1 < t.chars.length) :
    l.readRegister t = .error (.operands l.mnemonic (.longRegister t.text)) := by
  unfold readRegister
  split
  · rename_i c hc
    simp [hc] at h
  · rfl

theorem readRegister_of_unnamed {l : Layout} {t : Token} (h : t.chars.length = 1) (hn : ¬ ∃ r, t.Names r) :
    l.readRegister t = .error (.register t.text) := by
  obtain ⟨c, hc⟩ := List.length_eq_one_iff.mp h
  cases hr : Register.ofDigit? c with
  | none => simp [readRegister, hc, hr]
  | some r => exact absurd ⟨r, c, hc, Register.ofDigit?_eq_some.mp hr⟩ hn

theorem readRegisters_of_first {l : Layout} {ts : List Token} {t : Token} {f : LineFault}
    (h : Token.FirstUnnamed ts t) (ht : l.readRegister t = .error f) : ts.mapM l.readRegister = .error f := by
  obtain ⟨before, after, rfl, hb, -⟩ := h
  refine mapM_eq_error_of_first (fun u hu => ?_) ht
  obtain ⟨r, hr⟩ := hb u hu
  exact ⟨r, readRegister_eq_ok.mpr hr⟩

theorem readRegisters_eq_ok {l : Layout} {ts : List Token} {regs : List Register} :
    ts.mapM l.readRegister = .ok regs ↔ List.Forall₂ Token.Names ts regs := by
  simp only [mapM_eq_ok, readRegister_eq_ok]
  rfl

end Layout

namespace Instruction

variable {l : Layout} {ts : List Token} {regs : List Register}

theorem ofTokens_eq (l : Layout) (ts : List Token) :
    ofTokens l ts = (do
      let regs ← (ts.take l.operands.length).mapM l.readRegister
      let literal ← ts[l.operands.length]?.mapM fun t => readLiteral t.chars
      legal ⟨l.operation, regs, literal⟩) := by
  rw [ofTokens, List.head?_drop]

theorem ofTokens_of_unnamed {t : Token} {f : LineFault} (h : Token.FirstUnnamed (ts.take l.operands.length) t)
    (ht : l.readRegister t = .error f) : ofTokens l ts = .error f := by
  rw [ofTokens_eq, Layout.readRegisters_of_first h ht]
  rfl

theorem ofTokens_of_literal {t : Token} (hregs : List.Forall₂ Token.Names (ts.take l.operands.length) regs)
    (ht : ts[l.operands.length]? = some t) (h : ¬ ∃ v, Literal v t.chars) :
    ofTokens l ts = .error (.literal t.text) := by
  rw [ofTokens_eq, Layout.readRegisters_eq_ok.mpr hregs, ht, Option.mapM_some, readLiteral_of_not h]
  rfl

theorem ofTokens_of_reads {literal : Option UInt16} (h : l.Reads ts regs literal) :
    ofTokens l ts = legal ⟨l.operation, regs, literal⟩ := by
  have hliteral : ts[l.operands.length]?.mapM (fun t => readLiteral t.chars) = .ok literal := by
    have hrel := h.literal
    generalize ts[l.operands.length]? = t at hrel ⊢
    cases hrel with
    | none => rfl
    | some hv =>
        rw [Option.mapM_some, readLiteral_eq_ok.mpr hv]
        rfl
  rw [ofTokens_eq, Layout.readRegisters_eq_ok.mpr h.registers, hliteral]
  rfl

theorem ofOperands_of_not_shaped {cs : List Char} (h : ¬ l.Shaped (Token.scan cs)) :
    ∃ f, ofOperands l cs = .error (.operands l.mnemonic f) := by
  cases hf : l.shapeFault? (Token.scan cs) with
  | none => exact absurd (Layout.shapeFault?_eq_none_iff.mp hf) h
  | some f => exact ⟨f, by rw [ofOperands, hf]⟩

theorem ofOperands_of_shaped {cs : List Char} (h : l.Shaped (Token.scan cs)) :
    ofOperands l cs = ofTokens l (Token.scan cs) := by
  rw [ofOperands, Layout.shapeFault?_eq_none_iff.mpr h]

theorem exists_toWord (hl : l ∈ Layout.all) {literal : Option UInt16} (h : l.Obeyed regs literal) :
    ∃ w, toWord ⟨l.operation, regs, literal⟩ = .ok (some w) :=
  ⟨_, toWord_eq_ok_some.mpr ⟨l, Layout.layout?_operation hl, h, rfl⟩⟩

end Instruction

/-! ## Verdicts -/

namespace Layout

open Instruction

theorem Judges.verdict_eq {l : Layout} (hl : l ∈ all) {cs : List Char} {v : Verdict} (h : l.Judges (Token.scan cs) v) :
    Verdict.ofResult (ofOperands l cs >>= toWord) = v := by
  cases h with
  | misshapen hs =>
      obtain ⟨f, hf⟩ := ofOperands_of_not_shaped hs
      rw [hf]
      rfl
  | longRegister hs ht hlen =>
      rw [ofOperands_of_shaped hs, ofTokens_of_unnamed ht (readRegister_of_long hlen)]
      rfl
  | noRegister hs ht hlen =>
      obtain ⟨_, _, _, _, hn⟩ := id ht
      rw [ofOperands_of_shaped hs, ofTokens_of_unnamed ht (readRegister_of_unnamed hlen hn)]
      rfl
  | noLiteral hs hregs ht hn =>
      rw [ofOperands_of_shaped hs, ofTokens_of_literal hregs ht hn]
      rfl
  | @unruly regs literal hs hr ho =>
      rw [ofOperands_of_shaped hs, ofTokens_of_reads hr]
      rcases legal_of_layout (i := ⟨l.operation, regs, literal⟩) (layout?_operation hl) with ⟨ho', -⟩ | ⟨-, f, hf⟩
      · exact absurd ho' ho
      · rw [hf]
        rfl
  | @accepted regs literal hs hr ho =>
      obtain ⟨w, hw⟩ := exists_toWord hl ho
      rw [ofOperands_of_shaped hs, ofTokens_of_reads hr, legal_bind_toWord, hw]
      rfl

theorem Reads.exists_judges {l : Layout} {ts : List Token} {regs : List Register} {literal : Option UInt16}
    (hr : l.Reads ts regs literal) (hs : l.Shaped ts) : ∃ v, l.Judges ts v := by
  by_cases ho : l.Obeyed regs literal
  · exact ⟨_, .accepted hs hr ho⟩
  · exact ⟨_, .unruly hs hr ho⟩

theorem exists_judges (l : Layout) (ts : List Token) : ∃ v, l.Judges ts v := by
  by_cases hs : l.Shaped ts
  · obtain ⟨before, after, hsplit, hb, ha⟩ := exists_split_first (fun t => ∃ r, t.Names r) (ts.take l.operands.length)
    cases after with
    -- the leftmost token that names no register decides, by its length
    | cons t after =>
        have ht : Token.FirstUnnamed (ts.take l.operands.length) t := ⟨before, after, hsplit, hb, ha t rfl⟩
        have hmem : t ∈ ts.take l.operands.length := by simp [hsplit]
        rcases Nat.lt_or_eq_of_le (List.length_pos_iff.mpr (hs.full t (List.mem_of_mem_take hmem))) with hlen | hlen
        · exact ⟨_, .longRegister hs ht hlen⟩
        · exact ⟨_, .noRegister hs ht hlen.symm⟩
    | nil =>
        rw [List.append_nil] at hsplit
        rw [← hsplit] at hb
        obtain ⟨regs, hregs⟩ := exists_forall₂ hb
        cases ht : ts[l.operands.length]? with
        | none =>
            have hr : l.Reads ts regs none := ⟨hregs, ht ▸ .none⟩
            exact hr.exists_judges hs
        | some t =>
            by_cases hv : ∃ v, Literal v t.chars
            · obtain ⟨v, hv⟩ := hv
              have hr : l.Reads ts regs (some v) := ⟨hregs, ht ▸ .some hv⟩
              exact hr.exists_judges hs
            · exact ⟨_, .noLiteral hs hregs ht hv⟩
  · exact ⟨_, .misshapen hs⟩

end Layout

namespace Line

theorem ofLine_of_not_silent {s : String} (h : ¬ Silent s.toList) :
    Instruction.ofLine s = Instruction.ofCode (trim s.toList) := by
  obtain ⟨-, -, -, -, -, ht⟩ := exists_trim s.toList
  rw [← silent_trim, silent_of_trimmed ht] at h
  rw [Instruction.ofLine, if_neg h]

theorem ofLine_of_unknown {s : String} (h : ¬ Silent s.toList)
    (hm : ∀ l ∈ Layout.all, ¬ MnemonicWritten l (head s.toList)) :
    Instruction.ofLine s = .error (.unknownMnemonic (String.ofList (head s.toList))) := by
  rw [ofLine_of_not_silent h, Instruction.ofCode, ← head]
  cases hl : Layout.ofMnemonic? (head s.toList) with
  | none => rfl
  | some l =>
      have hmem := (Layout.ofMnemonic?_eq_some.mp hl).1
      exact absurd ((mnemonicWritten_iff hmem).mpr hl) (hm l hmem)

theorem ofLine_of_known {s : String} {l : Layout} (h : ¬ Silent s.toList) (hl : l ∈ Layout.all)
    (hm : MnemonicWritten l (head s.toList)) :
    Instruction.ofLine s = Instruction.ofOperands l (rest s.toList) := by
  rw [ofLine_of_not_silent h, Instruction.ofCode, drop_takeWhile, ← head, (mnemonicWritten_iff hl).mp hm, rest]

theorem Judged.verdict_eq {s : String} {v : Verdict} (h : Judged s.toList v) :
    Verdict.ofResult (Word.ofLine s) = v := by
  cases h with
  | silent hs =>
      rw [Word.ofLine_eq_ok_none.mpr hs]
      rfl
  | unknown hs hm =>
      rw [Word.ofLine, ofLine_of_unknown hs hm]
      rfl
  | known hs hl hm ht hj =>
      rw [← ht.scan_eq] at hj
      rw [Word.ofLine, ofLine_of_known hs hl hm]
      exact hj.verdict_eq hl

theorem exists_judged (cs : List Char) : ∃ v, Judged cs v := by
  by_cases hs : Silent cs
  · exact ⟨_, .silent hs⟩
  · by_cases hm : ∃ l ∈ Layout.all, MnemonicWritten l (head cs)
    · obtain ⟨l, hl, hm⟩ := hm
      obtain ⟨ts, ht⟩ := Token.exists_grouped (breaks_dropWhile (trim cs))
      obtain ⟨v, hv⟩ := l.exists_judges ts
      exact ⟨v, .known hs hl hm ht hv⟩
    · exact ⟨_, .unknown hs fun l hl h => hm ⟨l, hl, h⟩⟩

end Line

theorem Word.ofLine_eq_error {s : String} {f : LineFault} :
    Word.ofLine s = .error f ↔ Instruction.ofLine s = .error f := by
  cases h : Instruction.ofLine s with
  | error f' => simp [Word.ofLine, h, bind, Except.bind]
  | ok i =>
      obtain ⟨hf, -⟩ := Instruction.legal_of_ofLine h
      simp [Word.ofLine, h, bind, Except.bind, Instruction.toWord, Instruction.legal, hf, Except.map]

/-- What a line comes to is told by the first stage that has something to tell, and every fault is found in reading the
line, not in packing its word. -/
theorem Word.verdict_ofLine_iff_judged (s : String) :
    (∀ v, Verdict.ofResult (Word.ofLine s) = v ↔ Line.Judged s.toList v) ∧
      ∀ f, Word.ofLine s = .error f ↔ Instruction.ofLine s = .error f := by
  refine ⟨fun v => ⟨?_, Line.Judged.verdict_eq⟩, fun f => Word.ofLine_eq_error⟩
  rintro rfl
  -- some stage comes to a verdict, and a verdict of a stage is the verdict on the line
  obtain ⟨v, hv⟩ := Line.exists_judged s.toList
  rw [hv.verdict_eq]
  exact hv

/-- A wrong shape is told before a wrong register. Of two wrong registers the left one is told, and before a wrong
literal. -/
theorem Word.verdict_ofLine_iff_judged_sum :
    let line := " add 0,33 2 xyz "
    Token.Grouped [⟨['0'], false⟩, ⟨['3', '3'], true⟩, ⟨['2'], false⟩, ⟨['x', 'y', 'z'], false⟩]
        (Line.rest line.toList) ∧
      Verdict.ofResult (Word.ofLine line) = .invalidRegister "0" ∧
      Line.Judged "ADD 0, 33 2 xyz".toList (.malformedOperands "ADD") ∧
      Line.Judged "ADD 3,33 2 xyz".toList (.malformedOperands "ADD") ∧
      Line.Judged "ADD 3,3 F xyz".toList (.invalidLiteral "xyz") := by
  intro line
  let l : Layout := ⟨.add, "ADD", 0x4, Layout.combines, .immediate, none⟩
  have hspace : Blanks [' '] := by decide
  have hlast : Token.Grouped [⟨['x', 'y', 'z'], false⟩] " xyz".toList :=
    .group ['x', 'y', 'z'] [] (by simp) hspace (by decide) (by decide) (.nil (g := []) (by decide))
  have htokens : Token.Grouped [⟨['0'], false⟩, ⟨['3', '3'], true⟩, ⟨['2'], false⟩, ⟨['x', 'y', 'z'], false⟩]
      (Line.rest line.toList) := by
    have hrest : Line.rest line.toList = " 0,33 2 xyz".toList := by decide
    rw [hrest]
    exact .group ['0'] [['3', '3']] (by simp) hspace (by decide) (by decide)
      (.group ['2'] [] (by simp) hspace (by decide) (by decide) hlast)
  have hunnamed : ¬ ∃ r, Token.Names ⟨['0'], false⟩ r := by
    rintro ⟨r, c, hc, hr⟩
    cases hc
    cases Register.ofDigit?_eq_some.mpr hr
  have hjudged : Line.Judged line.toList (.invalidRegister "0") := by
    refine .known (l := l) (by decide) (by decide) ((mnemonicWritten_iff (by decide)).mpr (by decide)) htokens ?_
    exact .noRegister (Layout.shapeFault?_eq_none_iff.mp (by decide)) ⟨[], _, rfl, by simp, hunnamed⟩ rfl
  exact ⟨htokens, ((Word.verdict_ofLine_iff_judged line).1 _).mpr hjudged,
    ((Word.verdict_ofLine_iff_judged _).1 _).mp (by decide), ((Word.verdict_ofLine_iff_judged _).1 _).mp (by decide),
    ((Word.verdict_ofLine_iff_judged _).1 _).mp (by decide)⟩

end HexAsm
