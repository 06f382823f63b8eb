import HexAsm.Proofs.Lemmas.Statement

/-!
# Written instructions

How a mnemonic, operands and a literal are written, and what each part is read as. A line made of these parts is read
as the instruction, if that is legal.
-/

namespace HexAsm

open HexAsm.Text

/-! ## The parts of a line -/

/-- Register operands, each behind its separator. -/
inductive OperandsWritten : List Operand → List Register → List Char → Prop
  | nil : OperandsWritten [] [] []
  | cons {o os r rs sep c cs} : o.separator.Written sep → r.Written c → OperandsWritten os rs cs →
      OperandsWritten (o :: os) (r :: rs) (sep ++ c :: cs)

/-- The literal behind blanks, if the payload rule takes one. -/
inductive LiteralWritten : PayloadRule → Option UInt16 → List Char → Prop
  | absent {rule} : rule = .forbidden ∨ rule = .immediate → LiteralWritten rule none []
  | present {rule g v cs} : rule ≠ .forbidden → g ≠ [] → Blanks g → Literal v cs →
      LiteralWritten rule (some v) (g ++ cs)

/-- The mnemonic of a layout, each letter in either case. -/
def MnemonicWritten (l : Layout) (cs : List Char) : Prop :=
  List.Forall₂ (fun m c => c = m ∨ c = m.toLower) l.mnemonic.toList cs

/-! ## What the parts are read as -/

theorem mnemonicWritten_iff {l : Layout} (hl : l ∈ Layout.all) {cs : List Char} :
    MnemonicWritten l cs ↔ Layout.ofMnemonic? cs = some l := by
  have hup := (Layout.wellFormed_of_mem hl).mnemonic_upper
  simp only [Layout.ofMnemonic?_eq_some, hl, true_and, MnemonicWritten]
  generalize l.mnemonic.toList = ms at hup
  induction ms generalizing cs with
  | nil => simp [List.forall₂_nil_left_iff, eq_comm]
  | cons m ms ih =>
      cases cs with
      | nil => simp
      | cons c cs =>
          have hc := toUpper_eq_iff (c := c) (hup m (by simp))
          have ih := @ih cs (fun x hx => hup x (by simp [hx]))
          rw [List.forall₂_cons, List.map_cons, List.cons.injEq, ← hc, @eq_comm _ m]
          exact and_congr_right fun _ => ih

theorem OperandsWritten.length_eq {os : List Operand} {rs : List Register} {cs : List Char}
    (h : OperandsWritten os rs cs) : rs.length = os.length := by
  induction h with
  | nil => rfl
  | cons _ _ _ ih => simp [ih]

theorem OperandsWritten.inRange {os : List Operand} {rs : List Register} {cs : List Char}
    (h : OperandsWritten os rs cs) : ∀ r ∈ rs, r.InRange := by
  induction h with
  | nil => simp
  | cons _ hr _ ih => exact List.forall_mem_cons.mpr ⟨hr.inRange, ih⟩

/-- Tokens whose commas fit the operands and that are read as registers spell these operands. -/
theorem operandsWritten_of_spelled {l : Layout} {os : List Operand} {ts : List Token} {cs : List Char}
    {rs : List Register} (h : Token.Spelled ts cs) (hlen : os.length ≤ ts.length)
    (hcomma : Layout.commaFault? os ts = none) (hread : (ts.take os.length).mapM l.readRegister = .ok rs) :
    ∃ ops tail, cs = ops ++ tail ∧ OperandsWritten os rs ops ∧ Token.Spelled (ts.drop os.length) tail ∧
      Layout.commaFault? [] (ts.drop os.length) = none := by
  induction os generalizing ts cs rs with
  | nil =>
      cases hread
      exact ⟨[], cs, rfl, .nil, h, hcomma⟩
  | cons o os ih =>
      cases ts with
      | nil => simp at hlen
      | cons t ts =>
          obtain ⟨hsep, hcomma⟩ := Layout.commaFault?_cons_eq_none.mp hcomma
          obtain ⟨sep, rest, hs, _, rfl, hrest⟩ := h.cons_inv hsep
          simp only [List.length_cons, List.take_succ_cons, mapM_eq_ok, List.forall₂_cons_left_iff] at hread
          obtain ⟨r, rs, hr, hrs, rfl⟩ := hread
          obtain ⟨c, hc, hw⟩ := Layout.readRegister_eq_ok.mp hr
          obtain ⟨ops, tail, rfl, hops, htail, hnone⟩ := ih hrest (by simpa using hlen) hcomma (mapM_eq_ok.mpr hrs)
          exact ⟨sep ++ c :: ops, tail, by simp [hc], .cons hs hw hops, htail, hnone⟩

theorem Register.Written.plain {r : Register} {c : Char} (h : r.Written c) : Token.Plain [c] := by
  obtain ⟨v, hv, _⟩ := Option.bind_eq_some_iff.mp h.ofDigit?
  exact (Hex.digit?_eq_some.mp hv).plain

/-- Written operands are tokens that are read as the registers, in front of the tokens that the rest spells. -/
theorem OperandsWritten.spelled {l : Layout} {os : List Operand} {rs : List Register} {ops tail : List Char}
    {ts : List Token} (h : OperandsWritten os rs ops) (htail : Token.Spelled ts tail)
    (hcomma : ∀ t ∈ ts, t.comma = false) :
    ∃ us, Token.Spelled (us ++ ts) (ops ++ tail) ∧ us.length = os.length ∧
      us.mapM l.readRegister = .ok rs ∧ Layout.commaFault? os (us ++ ts) = none := by
  induction h with
  | nil => exact ⟨[], htail, rfl, rfl, Layout.commaFault?_nil_eq_none.mpr hcomma⟩
  | @cons o os r rs sep c cs hs hc _ ih =>
      obtain ⟨us, hus, hlen, hread, hnone⟩ := ih
      refine ⟨⟨[c], o.separator == .comma⟩ :: us, ?_, by simp [hlen], ?_, ?_⟩
      · simpa using Token.Spelled.cons hs hc.plain hus
      · exact mapM_eq_ok.mpr (.cons (Layout.readRegister_eq_ok.mpr ⟨c, rfl, hc⟩) (mapM_eq_ok.mp hread))
      · exact Layout.commaFault?_cons_eq_none.mpr ⟨rfl, hnone⟩

theorem Literal.plain {v : UInt16} {cs : List Char} (h : Literal v cs) : Token.Plain cs := by
  obtain ⟨ds, hds, _⟩ := h.value
  intro c hc
  obtain ⟨d, _, hd⟩ := exists_right_of_forall₂ hds hc
  exact hd.plain c (by simp)

/-- A written literal is no token or one, as many as the payload rule takes. -/
theorem LiteralWritten.spelled {rule : PayloadRule} {literal : Option UInt16} {tail : List Char}
    (h : LiteralWritten rule literal tail) (n : Nat) :
    ∃ ts, Token.Spelled ts tail ∧ (∀ t ∈ ts, t.comma = false) ∧ (∀ t ∈ ts, t.chars ≠ []) ∧
      ts.head?.mapM (fun t => readLiteral t.chars) = .ok literal ∧
      (rule.arity n).1 ≤ n + ts.length ∧ n + ts.length ≤ (rule.arity n).2 := by
  cases h with
  | absent hrule =>
      refine ⟨[], .nil, by simp, by simp, rfl, ?_⟩
      rcases hrule with rfl | rfl <;> simp [PayloadRule.arity]
  | @present g v cs hrule hg hgb hv =>
      refine ⟨[⟨cs, false⟩], ?_, by simp, by simpa using hv.ne_nil, ?_, ?_⟩
      · simpa using Token.Spelled.space hg hgb hv.plain .nil
      · simp [readLiteral_eq_ok.mpr hv]
      · cases rule <;> simp [PayloadRule.arity] at hrule ⊢

theorem LiteralWritten.absent_of_forbidden {rule : PayloadRule} {literal : Option UInt16} {tail : List Char}
    (h : LiteralWritten rule literal tail) (hrule : rule = .forbidden) : literal = none := by
  cases h with
  | absent _ => rfl
  | present hr _ _ _ => exact absurd hrule hr

theorem LiteralWritten.present_of_required {rule : PayloadRule} {literal : Option UInt16} {tail : List Char}
    (h : LiteralWritten rule literal tail) (hrule : rule = .address ∨ rule = .value) : literal ≠ none := by
  cases h with
  | absent hr => rcases hr with rfl | rfl <;> simp at hrule
  | present _ _ _ _ => simp

/-- The tokens after the registers, as many as the payload rule takes, spell the literal that they are read as. -/
theorem literalWritten_of_spelled {rule : PayloadRule} {ts : List Token} {tail : List Char} {n : Nat}
    {literal : Option UInt16} (h : Token.Spelled ts tail) (hcomma : Layout.commaFault? [] ts = none)
    (harity : (rule.arity n).1 ≤ n + ts.length ∧ n + ts.length ≤ (rule.arity n).2)
    (hread : ts.head?.mapM (fun t => readLiteral t.chars) = .ok literal) : LiteralWritten rule literal tail := by
  have hcomma := Layout.commaFault?_nil_eq_none.mp hcomma
  match ts, h with
  | [], .nil =>
      cases hread
      refine .absent ?_
      cases rule <;> simp [PayloadRule.arity] at harity ⊢
  | [⟨t, _⟩], .space (g := g) hg hgb _ .nil =>
      have hrule : rule ≠ .forbidden := by
        rintro rfl
        simp [PayloadRule.arity] at harity
      cases hv : readLiteral t with
      | error e => simp [hv] at hread
      | ok v =>
          simp [hv] at hread
          cases hread
          simpa using LiteralWritten.present hrule hg hgb (readLiteral_eq_ok.mp hv)
  | ⟨t, _⟩ :: _, .comma _ _ => exact absurd (hcomma ⟨t, true⟩ (by simp)) (by simp)
  | _ :: _ :: _, _ =>
      exfalso
      cases rule <;> simp [PayloadRule.arity] at harity

/-! ## Lines -/

/-- A line made of a mnemonic, operands and a literal, between blanks, is read as the instruction, if that is legal. -/
theorem Instruction.ofLine_of_parts {l : Layout} {regs : List Register} {literal : Option UInt16} {s : String}
    {before head ops tail after : List Char} (hl : l ∈ Layout.all) (hm : MnemonicWritten l head)
    (hops : OperandsWritten l.operands regs ops) (hlit : LiteralWritten l.payload literal tail)
    (hb : Blanks before) (ha : Blanks after) (hs : s.toList = before ++ (head ++ ops ++ tail) ++ after) :
    ofLine s = legal ⟨l.operation, regs, literal⟩ := by
  obtain ⟨ts, hts, hplain, hfull, hread, hmin, hmax⟩ := hlit.spelled l.operands.length
  obtain ⟨us, hus, hlen, hregs, hcomma⟩ := hops.spelled (l := l) hts hplain
  have hne : ∀ t ∈ us ++ ts, t.chars ≠ [] := by
    intro t ht
    rcases List.mem_append.mp ht with ht | ht
    · exact Layout.readRegister_ne_nil hregs t ht
    · exact hfull t ht
  have hshape : l.shapeFault? (us ++ ts) = none := by
    refine Layout.shapeFault?_eq_none.mpr ⟨?_, hne, hcomma⟩
    rw [List.length_append, hlen]
    exact ⟨hmin, hmax⟩
  rw [List.append_assoc head] at hs
  rw [ofLine_of_spelled ((mnemonicWritten_iff hl).mp hm) hus hshape hb ha hs]
  simp only [ofTokens, ← hlen, List.take_left, List.drop_left, hregs, hread]
  rfl

/-- A line that is read as an instruction with a word is made of a mnemonic, operands and a literal, between blanks. -/
theorem Instruction.parts_of_ofLine {s : String} {i : Instruction} (h : ofLine s = .ok i) (hi : i.op ≠ .comment) :
    ∃ l before head ops tail after, l ∈ Layout.all ∧ i.op = l.operation ∧ l.Obeyed i.regs i.literal ∧
      MnemonicWritten l head ∧ OperandsWritten l.operands i.regs ops ∧ LiteralWritten l.payload i.literal tail ∧
      Blanks before ∧ Blanks after ∧ s.toList = before ++ (head ++ ops ++ tail) ++ after := by
  obtain ⟨before, line, after, l, head, rest, hb, ha, hs, hsplit, hops⟩ := split_of_ofLine h hi
  obtain ⟨hshape, htokens⟩ := ofOperands_eq_ok.mp hops
  obtain ⟨⟨hmin, hmax⟩, -, hcomma⟩ := Layout.shapeFault?_eq_none.mp hshape
  have hl := (Layout.ofMnemonic?_eq_some.mp hsplit.mnemonic).1
  obtain ⟨hop, hregs, hliteral, hobeyed⟩ := (ofTokens_eq_ok hl).mp htokens
  have hlen : l.operands.length ≤ (Token.scan rest).length := Nat.le_trans (PayloadRule.le_arity _ _) hmin
  obtain ⟨ops, tail, rfl, hw, htail, hnone⟩ :=
    operandsWritten_of_spelled (Token.spelled_scan hsplit.breaks hsplit.last) hlen hcomma hregs
  have harity : (l.payload.arity l.operands.length).1 ≤
        l.operands.length + ((Token.scan (ops ++ tail)).drop l.operands.length).length ∧
      l.operands.length + ((Token.scan (ops ++ tail)).drop l.operands.length).length ≤
        (l.payload.arity l.operands.length).2 := by
    rw [List.length_drop, Nat.add_sub_cancel' hlen]
    exact ⟨hmin, hmax⟩
  refine ⟨l, before, head, ops, tail, after, hl, hop, hobeyed, (mnemonicWritten_iff hl).mpr hsplit.mnemonic, hw,
    literalWritten_of_spelled htail hnone harity hliteral, hb, ha, ?_⟩
  rw [hs, hsplit.eq, List.append_assoc head]

theorem Instruction.inRange_of_ofLine {s : String} {i : Instruction} (h : ofLine s = .ok i) (hi : i.op ≠ .comment) :
    i.InRange := by
  obtain ⟨_, _, _, _, _, _, _, _, _, _, hops, _⟩ := parts_of_ofLine h hi
  exact hops.inRange

end HexAsm
