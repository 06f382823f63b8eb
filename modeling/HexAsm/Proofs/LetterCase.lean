import HexAsm.Proofs.Lemmas.Pass
import HexAsm.Proofs.Lemmas.Silent

/-!
# The case of letters

Blanks, commas, comment markers and line ends are no letters, so that putting a text in upper case keeps its lines, its
lexemes and its tokens. Mnemonics and digits are read in either case. So a text and its upper-case form come to the same
words and to faults of the same kinds, and so do any two texts with the same upper-case form.
-/

namespace HexAsm

open HexAsm.Text

/-! ## Characters -/

/-- The texts differ at most in the case of ASCII letters. -/
def SameLetters (a b : String) : Prop :=
  List.Forall₂ (fun c d => c = d ∨ c.isAlpha = true ∧ (d = c.toLower ∨ d = c.toUpper)) a.toList b.toList

instance (a b : String) : Decidable (SameLetters a b) :=
  inferInstanceAs (Decidable (List.Forall₂ _ a.toList b.toList))

namespace Text

/-- What upper case does not change in ASCII it changes nowhere. -/
theorem toUpper_invariant {α : Type} (f : Char → α) (h : ∀ n < 128, f (Char.ofNat n).toUpper = f (Char.ofNat n))
    (c : Char) : f c.toUpper = f c := by
  by_cases hl : 'a'.val ≤ c.val ∧ c.val ≤ 'z'.val
  · have hc : c.toNat ≤ 'z'.toNat := hl.2
    exact forall_ascii (P := fun c => f c.toUpper = f c) h (Nat.lt_of_le_of_lt hc (by decide))
  · have hu : c.toUpper = c := dif_neg hl
    rw [hu]

theorem toUpper_toUpper (c : Char) : c.toUpper.toUpper = c.toUpper := toUpper_invariant Char.toUpper (by decide) c

theorem toUpper_toLower (c : Char) : c.toLower.toUpper = c.toUpper := by
  by_cases hu : 'A'.val ≤ c.val ∧ c.val ≤ 'Z'.val
  · have hc : c.toNat ≤ 'Z'.toNat := hu.2
    exact forall_ascii (P := fun c => c.toLower.toUpper = c.toUpper) (by decide) (Nat.lt_of_le_of_lt hc (by decide))
  · have hl : c.toLower = c := dif_neg hu
    rw [hl]

theorem isBlank_toUpper (c : Char) : isBlank c.toUpper = isBlank c := toUpper_invariant isBlank (by decide) c

theorem digit?_toUpper (c : Char) : Hex.digit? c.toUpper = Hex.digit? c := toUpper_invariant Hex.digit? (by decide) c

/-- The characters that the structure of a text hangs on, apart from blanks. -/
def marks : List Char := [',', ';', '#', '/', '\n', '\r']

theorem toUpper_eq_mark {d : Char} (hd : d ∈ marks) (c : Char) : c.toUpper = d ↔ c = d := by
  have h := toUpper_invariant (fun c => marks.map (c == ·)) (by decide) c
  have hmark := List.map_inj_left.mp h d hd
  simpa using Bool.eq_iff_iff.mp hmark

theorem toUpper_mark {d : Char} (hd : d ∈ marks) : d.toUpper = d := (toUpper_eq_mark hd d).mpr rfl

/-! ## Lines and lexemes -/

/-- The text in upper case. -/
def upper (cs : List Char) : List Char := cs.map Char.toUpper

theorem upper_append (cs ds : List Char) : upper (cs ++ ds) = upper cs ++ upper ds := List.map_append

theorem upper_eq_nil {cs : List Char} : upper cs = [] ↔ cs = [] := List.map_eq_nil_iff

theorem upper_upper (cs : List Char) : upper (upper cs) = upper cs := by
  rw [upper, upper, List.map_map]
  exact List.map_congr_left fun c _ => toUpper_toUpper c

theorem comp_isBlank : isBlank ∘ Char.toUpper = isBlank := funext isBlank_toUpper

theorem comp_not_isBlank : (!isBlank ·) ∘ Char.toUpper = (!isBlank ·) := by
  funext c
  exact congrArg (!·) (isBlank_toUpper c)

theorem trim_upper (cs : List Char) : trim (upper cs) = upper (trim cs) := by
  have hstart : ∀ ds, (upper ds).dropWhile isBlank = upper (ds.dropWhile isBlank) := by
    intro ds
    rw [upper, List.dropWhile_map, comp_isBlank, upper]
  simp only [trim, trimEnd, trimStart, hstart]
  rw [upper, ← List.map_reverse, ← upper, hstart, upper, ← List.map_reverse, ← upper]

theorem lines_upper (cs : List Char) : lines (upper cs) = (lines cs).map upper := by
  have hfeed : '\n'.toUpper = '\n' := toUpper_mark (by decide)
  have hreturn : '\r'.toUpper = '\r' := toUpper_mark (by decide)
  fun_induction lines cs with
  | case1 => rfl
  | case2 cs ih =>
      rw [upper, List.map_cons, hfeed, ← upper, lines, ih]
      rfl
  | case3 cs ih =>
      rw [upper, List.map_cons, List.map_cons, hfeed, hreturn, ← upper, lines, ih]
      rfl
  | case4 c cs hn hr hcs ih =>
      have hn' : c.toUpper ≠ '\n' := fun h => hn ((toUpper_eq_mark (by decide) c).mp h)
      have hempty : cs = [] := by
        cases cs with
        | nil => rfl
        | cons d cs => exact absurd hcs (lines_ne_nil d cs)
      rw [hempty]
      exact lines_last (t := [c.toUpper]) (by simpa using Ne.symm hn') (by simp)
  | case5 c cs hn hr l ls hcs ih =>
      have hn' : c.toUpper ≠ '\n' := fun h => hn ((toUpper_eq_mark (by decide) c).mp h)
      have hr' : c.toUpper = '\r' → (upper cs).head? ≠ some '\n' := by
        intro h hd
        rw [toUpper_eq_mark (by decide)] at h
        rw [upper, List.head?_map, Option.map_eq_some_iff] at hd
        obtain ⟨d, hd, hdn⟩ := hd
        rw [toUpper_eq_mark (by decide)] at hdn
        obtain ⟨rest, rfl⟩ := List.head?_eq_some_iff.mp hd
        exact hr rest h (by rw [hdn])
      rw [upper, List.map_cons, ← upper, lines_cons hn' hr', ih, hcs]
      rfl

end Text

namespace Line

theorem prefix_upper {m : List Char} (hm : ∀ c ∈ m, c ∈ marks) (cs : List Char) : m <+: upper cs ↔ m <+: cs := by
  induction m generalizing cs with
  | nil => simp
  | cons d m ih =>
      cases cs with
      | nil => rfl
      | cons c cs =>
          have hd := toUpper_eq_mark (hm d (by simp)) c
          have ih := ih (fun x hx => hm x (by simp [hx])) cs
          rw [upper, List.map_cons, ← upper, List.cons_prefix_cons, List.cons_prefix_cons, ih, @eq_comm _ d, hd,
            @eq_comm _ c]

theorem atMarker_upper (cs : List Char) : atMarker (upper cs) = atMarker cs := by
  have hmarks : ∀ m ∈ markers, ∀ c ∈ m, c ∈ marks := by simp [markers, marks]
  rw [Bool.eq_iff_iff, atMarker_iff, atMarker_iff]
  exact exists_congr fun m => and_congr_right fun hm => prefix_upper (hmarks m hm) cs

theorem isComment_upper (cs : List Char) : isComment (upper cs) = isComment cs := by
  rw [isComment, trimStart, upper, List.dropWhile_map, comp_isBlank, ← upper, atMarker_upper, isComment, trimStart]

theorem code_upper (cs : List Char) : code (upper cs) = upper (code cs) := by
  induction cs with
  | nil => rfl
  | cons c cs ih =>
      have hmark := atMarker_upper (c :: cs)
      rw [upper, List.map_cons, ← upper] at hmark ⊢
      rw [code, code, hmark, ih]
      split <;> rfl

theorem Lexed.upper {cs : List Char} {ts : List (List Char)} (h : Lexed cs ts) :
    Lexed (upper cs) (ts.map Text.upper) := by
  have hcomma : ∀ c : Char, c.toUpper = ',' ↔ c = ',' := toUpper_eq_mark (by decide)
  induction h with
  | nil => exact .nil
  | blank hb _ ih => exact .blank ((isBlank_toUpper _).trans hb) ih
  | comma _ ih => exact .comma ih
  | @word w cs ts hne hw hr _ ih =>
      rw [upper_append]
      refine .word (upper_eq_nil.not.mpr hne) (fun c hc => ?_) (fun c hc => ?_) ih
      · obtain ⟨d, hd, rfl⟩ := List.mem_map.mp hc
        exact ⟨(isBlank_toUpper d).trans (hw d hd).1, (hcomma d).not.mpr (hw d hd).2⟩
      · rw [Text.upper, List.head?_map] at hc
        obtain ⟨d, hd, rfl⟩ := Option.mem_map.mp hc
        rw [isBlank_toUpper, hcomma]
        exact hr d hd

theorem lexemes_upper (cs : List Char) : lexemes (upper cs) = (lexemes cs).map upper :=
  (lexed_lexemes cs).upper.lexemes_eq

theorem upper_eq_comma {t : List Char} : upper t = [','] ↔ t = [','] := by
  constructor
  · intro h
    obtain ⟨c, rfl, hc⟩ := List.map_eq_singleton_iff.mp h
    rw [(toUpper_eq_mark (by decide) c).mp hc]
  · intro h
    rw [h]
    rfl

theorem spellAfter_upper (previous : List Char) (ts : List (List Char)) :
    spellAfter (upper previous) (ts.map upper) = upper (spellAfter previous ts) := by
  induction ts generalizing previous with
  | nil => rfl
  | cons t ts ih =>
      rw [List.map_cons, spellAfter, spellAfter, ih, upper_append]
      simp only [upper_eq_comma]
      split <;> rfl

theorem spell_upper (ts : List (List Char)) : spell (ts.map upper) = upper (spell ts) := by
  match ts with
  | [] => rfl
  | [t] => rfl
  | t :: u :: us =>
      rw [List.map_cons, List.map_cons, spell, spell, spellAfter_upper, upper_append, upper_append]
      simp only [upper_eq_comma]
      split <;> rfl

theorem tidy_upper (cs : List Char) : tidy (upper cs) = upper (tidy cs) := by
  rw [tidy, code_upper, lexemes_upper, spell_upper, tidy]

end Line

/-! ## Tokens -/

namespace Token

/-- The token in upper case. -/
def upper (t : Token) : Token := ⟨Text.upper t.chars, t.comma⟩

theorem splitOnP_upper {p : Char → Bool} (hp : ∀ c, p c.toUpper = p c) (cs : List Char) :
    (Text.upper cs).splitOnP p = (cs.splitOnP p).map Text.upper := by
  induction cs with
  | nil => rfl
  | cons c cs ih =>
      rw [Text.upper, List.map_cons, ← Text.upper, List.splitOnP_cons_eq_if_modifyHead,
        List.splitOnP_cons_eq_if_modifyHead, hp, ih]
      split
      · rfl
      · cases cs.splitOnP p <;> rfl

theorem ofWord_upper (cs : List Char) : ofWord (Text.upper cs) = (ofWord cs).map upper := by
  have hcomma : ∀ c : Char, (c.toUpper == ',') = (c == ',') := by
    intro c
    rw [Bool.eq_iff_iff, beq_iff_eq, beq_iff_eq]
    exact toUpper_eq_mark (by decide) c
  rw [ofWord, splitOnP_upper hcomma, ofWord]
  cases cs.splitOnP (· == ',') with
  | nil => rfl
  | cons t ts =>
      simp only [List.map_cons, List.map_map]
      rfl

theorem scan_upper (cs : List Char) : scan (Text.upper cs) = (scan cs).map upper := by
  have hwords : words (Text.upper cs) = (words cs).map Text.upper := by
    rw [words, splitOnP_upper isBlank_toUpper, List.filter_map, words]
    congr 1
    refine List.filter_congr fun w _ => ?_
    cases w <;> rfl
  rw [scan, hwords, List.flatMap_map, scan, List.map_flatMap]
  simp only [ofWord_upper]

end Token

/-! ## Reading -/

theorem Hex.number?_upper (cs : List Char) : number? (upper cs) = number? cs := by
  rw [number?, upper, List.mapM_map, number?]
  congr 2
  exact funext digit?_toUpper

theorem Layout.ofMnemonic?_upper (name : List Char) : ofMnemonic? (upper name) = ofMnemonic? name := by
  have h := upper_upper name
  rw [upper, upper] at h
  rw [ofMnemonic?, upper, h, ofMnemonic?]

theorem Layout.shapeFault?_upper (l : Layout) (ts : List Token) :
    l.shapeFault? (ts.map Token.upper) = none ↔ l.shapeFault? ts = none := by
  have hcommas : ∀ os, commaFault? os (ts.map Token.upper) = none ↔ commaFault? os ts = none := by
    induction ts with
    | nil => exact fun _ => Iff.rfl
    | cons t ts ih =>
        intro os
        cases os with
        | nil => simp only [commaFault?_nil_eq_none, List.forall_mem_map, Token.upper]
        | cons o os =>
            rw [List.map_cons, commaFault?_cons_eq_none, commaFault?_cons_eq_none, ih]
            rfl
  simp only [shapeFault?_eq_none, List.length_map, List.forall_mem_map, hcommas, Token.upper, ne_eq, upper_eq_nil]

theorem Layout.kind_readRegister_upper (l : Layout) (t : Token) :
    (l.readRegister t.upper).mapError LineFault.kind = (l.readRegister t).mapError LineFault.kind := by
  obtain ⟨cs, comma⟩ := t
  match cs with
  | [] => rfl
  | [c] =>
      have hdigit : Register.ofDigit? c.toUpper = Register.ofDigit? c := by
        rw [Register.ofDigit?, digit?_toUpper, Register.ofDigit?]
      simp only [readRegister, Token.upper, upper, List.map_cons, List.map_nil, hdigit]
      cases Register.ofDigit? c <;> rfl
  | c :: d :: cs => rfl

theorem kind_readLiteral_upper (cs : List Char) :
    (readLiteral (upper cs)).mapError LineFault.kind = (readLiteral cs).mapError LineFault.kind := by
  have hlength : (upper cs).length = cs.length := List.length_map ..
  simp only [readLiteral, hlength, Hex.number?_upper, ne_eq, upper_eq_nil]
  split
  · cases Hex.number? cs <;> rfl
  · rfl

namespace Instruction

theorem kind_ofTokens_upper (l : Layout) (ts : List Token) :
    (ofTokens l (ts.map Token.upper)).mapError LineFault.kind = (ofTokens l ts).mapError LineFault.kind := by
  have hregs : ∀ us : List Token, ((us.map Token.upper).mapM l.readRegister).mapError LineFault.kind =
      (us.mapM l.readRegister).mapError LineFault.kind := by
    intro us
    rw [mapError_mapM, mapError_mapM, List.mapM_map]
    congr 1
    exact funext (Layout.kind_readRegister_upper l)
  have hliteral : ∀ o : Option Token,
      ((o.map Token.upper).mapM fun t => readLiteral t.chars).mapError LineFault.kind =
        (o.mapM fun t => readLiteral t.chars).mapError LineFault.kind := by
    intro o
    cases o with
    | none => rfl
    | some t =>
        rw [Option.map_some, Option.mapM_some, Option.mapM_some, mapError_map, mapError_map]
        exact congrArg _ (kind_readLiteral_upper t.chars)
  simp only [ofTokens, mapError_bind, ← List.map_take, ← List.map_drop, List.head?_map, hregs, hliteral]

theorem kind_ofOperands_upper (l : Layout) (cs : List Char) :
    (ofOperands l (upper cs)).mapError LineFault.kind = (ofOperands l cs).mapError LineFault.kind := by
  have hshape := l.shapeFault?_upper (Token.scan cs)
  rw [ofOperands, ofOperands, Token.scan_upper]
  cases hs : l.shapeFault? (Token.scan cs) with
  | none =>
      rw [hshape.mpr hs]
      exact kind_ofTokens_upper l _
  | some f =>
      cases hs' : l.shapeFault? ((Token.scan cs).map Token.upper) with
      | none =>
          rw [hshape.mp hs'] at hs
          cases hs
      | some f' => rfl

theorem kind_ofCode_upper (cs : List Char) :
    (ofCode (upper cs)).mapError LineFault.kind = (ofCode cs).mapError LineFault.kind := by
  have hhead : (upper cs).takeWhile (!isBlank ·) = upper (cs.takeWhile (!isBlank ·)) := by
    rw [upper, List.takeWhile_map, comp_not_isBlank, upper]
  have hrest : ∀ n, (upper cs).drop n = upper (cs.drop n) := fun n => List.map_drop.symm
  have hlength : (upper (cs.takeWhile (!isBlank ·))).length = (cs.takeWhile (!isBlank ·)).length := List.length_map ..
  simp only [ofCode, hhead, Layout.ofMnemonic?_upper, hrest, hlength]
  cases Layout.ofMnemonic? (cs.takeWhile (!isBlank ·)) with
  | none => rfl
  | some l => exact kind_ofOperands_upper l _

theorem kind_ofLine_upper (cs : List Char) :
    (ofLine (String.ofList (upper cs))).mapError LineFault.kind =
      (ofLine (String.ofList cs)).mapError LineFault.kind := by
  simp only [ofLine, String.toList_ofList, trim_upper, upper_eq_nil, Line.isComment_upper]
  split
  · rfl
  · exact kind_ofCode_upper _

theorem kind_textOfWord_upper (cs : List Char) :
    (textOfWord (String.ofList (upper cs))).mapError WordFault.kind =
      (textOfWord (String.ofList cs)).mapError WordFault.kind := by
  have hlength : (upper cs).length = cs.length := List.length_map ..
  have hword : (Word.ofText (String.ofList (upper cs))).mapError WordFault.kind =
      (Word.ofText (String.ofList cs)).mapError WordFault.kind := by
    simp only [Word.ofText, String.length_ofList, String.toList_ofList, hlength, Hex.number?_upper]
    split
    · cases Hex.number? cs <;> rfl
    · rfl
  rw [textOfWord, textOfWord, mapError_bind, mapError_bind, hword]

end Instruction

/-! ## Reports -/

theorem kind_convertLine_upper (n : Nat) (cs : List Char) :
    (convertLine ⟨n, String.ofList (upper cs)⟩).mapError Fault.kind =
      (convertLine ⟨n, String.ofList cs⟩).mapError Fault.kind := by
  have hkind : ∀ x : Except LineFault (Option Word),
      (x.mapError .line).mapError Fault.kind = x.mapError LineFault.kind := by
    intro x
    cases x <;> rfl
  rw [convertLine, convertLine, hkind, hkind, String.toList_ofList, String.toList_ofList, Line.tidy_upper]
  rw [Word.ofLine, Word.ofLine, mapError_bind, mapError_bind, Instruction.kind_ofLine_upper]

/-- A failure as far as its line and the kind of its fault go. -/
def Failure.lineKind (f : Failure) : Nat × FaultKind := (f.line, f.fault.kind)

theorem Step.alike_of_kind {item item' : Item} {result result' : Except Fault (Option Word)}
    (hline : item'.line = item.line) (h : result'.mapError Fault.kind = result.mapError Fault.kind) :
    Step.Alike Failure.lineKind ⟨item, result⟩ ⟨item', result'⟩ := by
  cases result with
  | ok a =>
      cases result' with
      | ok a' =>
          cases h
          exact ⟨rfl, rfl⟩
      | error f' => cases h
  | error f =>
      cases result' with
      | ok a' => cases h
      | error f' =>
          refine ⟨rfl, ?_⟩
          simp only [failure?, Option.map_some, Failure.lineKind, hline, Except.error.inj h]

theorem report_assemble_upper (settings : Settings) (source : String) :
    let report := (assemble settings source).report
    let report' := (assemble settings (String.ofList (upper source.toList))).report
    report'.lines = report.lines ∧ report'.output = report.output ∧
      report'.failures.map Failure.lineKind = report.failures.map Failure.lineKind := by
  intro report report'
  refine Pass.report_run_congr ?_ settings.keepGoing
  rw [sourceItems, sourceItems, String.toList_ofList, lines_upper, List.zipIdx_map, List.map_map,
    List.forall₂_map_left_iff, List.forall₂_map_right_iff, List.forall₂_same]
  exact fun x _ => Step.alike_of_kind rfl (kind_convertLine_upper x.2 x.1)

theorem SameLetters.upper_eq {a b : String} (h : SameLetters a b) : upper a.toList = upper b.toList := by
  unfold SameLetters at h
  generalize a.toList = cs, b.toList = ds at h
  induction h with
  | nil => rfl
  | cons hc _ ih =>
      rw [upper, upper, List.map_cons, List.map_cons, ← upper, ← upper, ih]
      congr 1
      rcases hc with rfl | ⟨-, rfl | rfl⟩
      · rfl
      · exact (toUpper_toLower _).symm
      · exact (toUpper_toUpper _).symm

/-- Sources that differ only in the case of letters have the same number of lines, the same words, and failures on the
same lines and of the same kinds. Texts that differ so stand for a word with the same instruction, or neither does. -/
theorem assemble_ignores_case {a b : String} (h : SameLetters a b) :
    (∀ settings : Settings,
        let report := (assemble settings a).report
        let report' := (assemble settings b).report
        report'.lines = report.lines ∧ report'.output = report.output ∧
          List.Forall₂ (fun f f' => f'.line = f.line ∧ f'.fault.kind = f.fault.kind) report.failures report'.failures) ∧
      ((∃ text, Instruction.textOfWord a = .ok text ∧ Instruction.textOfWord b = .ok text) ∨
        ∃ f f', Instruction.textOfWord a = .error f ∧ Instruction.textOfWord b = .error f' ∧ f'.kind = f.kind) := by
  refine ⟨fun settings => ?_, ?_⟩
  · intro report report'
    obtain ⟨hlines, houtput, hfailures⟩ := report_assemble_upper settings a
    obtain ⟨hlines', houtput', hfailures'⟩ := report_assemble_upper settings b
    rw [h.upper_eq] at hlines houtput hfailures
    refine ⟨hlines'.symm.trans hlines, houtput'.symm.trans houtput, ?_⟩
    have heq : report.failures.map Failure.lineKind = report'.failures.map Failure.lineKind :=
      hfailures.symm.trans hfailures'
    rw [← List.forall₂_eq_eq_eq, List.forall₂_map_left_iff, List.forall₂_map_right_iff] at heq
    exact heq.imp fun f f' hf => ⟨(congrArg Prod.fst hf).symm, (congrArg Prod.snd hf).symm⟩
  · have hkind : (Instruction.textOfWord a).mapError WordFault.kind =
        (Instruction.textOfWord b).mapError WordFault.kind := by
      have ha := Instruction.kind_textOfWord_upper a.toList
      have hb := Instruction.kind_textOfWord_upper b.toList
      rw [h.upper_eq] at ha
      rw [String.ofList_toList] at ha hb
      exact ha.symm.trans hb
    cases hta : Instruction.textOfWord a with
    | ok text =>
        rw [hta] at hkind
        cases htb : Instruction.textOfWord b with
        | ok text' =>
            rw [htb] at hkind
            cases hkind
            exact .inl ⟨text, rfl, rfl⟩
        | error f' =>
            rw [htb] at hkind
            cases hkind
    | error f =>
        rw [hta] at hkind
        cases htb : Instruction.textOfWord b with
        | ok text' =>
            rw [htb] at hkind
            cases hkind
        | error f' =>
            rw [htb] at hkind
            exact .inr ⟨f, f', rfl, rfl, (Except.error.inj hkind).symm⟩

/-- A source in two spellings, with lines that break off at different stages, and a word in two spellings. -/
theorem assemble_ignores_case_mixed :
    let a := "add d,3 2 ; Sum\nfoo\nldi 0 1\nJmp 12G4"
    let b := "ADD D,3 2 ; sUM\nFoo\nLDI 0 1\njMP 12g4"
    SameLetters a b ∧ SameLetters "42f3BeeF" "42F3bEEf" ∧ (assemble {} b).report.output = [⟨0x42D30000⟩] ∧
      (assemble {} b).report.failures.map Failure.lineKind =
        [(2, .unknownMnemonic), (3, .invalidRegister), (4, .invalidLiteral)] ∧
      Instruction.textOfWord "42F3bEEf" = .ok "ADD F,3 2 BEEF" := by
  intro a b
  have hsource : SameLetters a b := by decide
  have hword : SameLetters "42f3BeeF" "42F3bEEf" := by decide
  have hfailed : (assemble {} a).report.failures.map Failure.lineKind =
      [(2, .unknownMnemonic), (3, .invalidRegister), (4, .invalidLiteral)] := by decide
  have htext : Instruction.textOfWord "42f3BeeF" = .ok "ADD F,3 2 BEEF" := by decide
  obtain ⟨-, houtput, hfailures⟩ := (assemble_ignores_case hsource).1 {}
  refine ⟨hsource, hword, houtput.trans (by decide), ?_, ?_⟩
  · rw [← hfailed, ← List.forall₂_eq_eq_eq, List.forall₂_map_left_iff, List.forall₂_map_right_iff]
    exact hfailures.flip.imp fun f f' hf => Prod.ext hf.1 hf.2
  · rcases (assemble_ignores_case hword).2 with ⟨text, ha, hb⟩ | ⟨f, _, ha, -, -⟩
    · rw [hb, ← ha, htext]
    · cases htext.symm.trans ha

end HexAsm
