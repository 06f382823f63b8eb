import HexAsm.Proofs.Lemmas.Lexemes
import HexAsm.Proofs.Lemmas.Written

/-!
# Spacing

What a line is read as depends on its lexemes, if no blank stands next to a comma. Tidying a line and closing up the
commas of its code both keep the lexemes before the first comment marker, so both are read alike; and a line that is read
as it stands is read in the same way when it is tidy.
-/

namespace HexAsm

open HexAsm.Text

namespace Line

/-! ## Closing up commas -/

/-- The text without its runs of blanks that touch a comma, where `comma` tells that the last character before the
text that is not blank is a comma. -/
def closeUpAfter (comma : Bool) : List Char → List Char
  | [] => []
  | c :: cs =>
    if isBlank c then
      if comma || (trimStart cs).head? == some ',' then closeUpAfter comma cs else c :: closeUpAfter comma cs
    else c :: closeUpAfter (c == ',') cs

/-- The text without its runs of blanks that touch a comma. -/
def closeUp (cs : List Char) : List Char := closeUpAfter false cs

theorem closeUpAfter_solid {c : Char} (hc : isBlank c = false) (comma : Bool) (cs : List Char) :
    closeUpAfter comma (c :: cs) = c :: closeUpAfter (c == ',') cs := by
  simp [closeUpAfter, hc]

theorem closeUpAfter_word {w : List Char} (hne : w ≠ []) (hw : Token.Plain w) (comma : Bool) (cs : List Char) :
    closeUpAfter comma (w ++ cs) = w ++ closeUpAfter false cs := by
  induction w generalizing comma with
  | nil => exact absurd rfl hne
  | cons c w ih =>
      have hc := hw c (by simp)
      have hcomma : (c == ',') = false := by simpa using hc.2
      rw [List.cons_append, closeUpAfter_solid hc.1, hcomma]
      cases w with
      | nil => rfl
      | cons d w =>
          rw [ih (by simp) (fun x hx => hw x (by simp [hx]))]
          rfl

theorem head_trimStart_blanks {g cs : List Char} (hg : Blanks g) (hcs : ∀ c ∈ cs.head?, isBlank c = false) :
    (trimStart (g ++ cs)).head? = cs.head? := by
  rw [trimStart_blanks hg, trimStart_of_head hcs]

theorem closeUpAfter_blanks_comma {g : List Char} (hg : Blanks g) (comma : Bool) (cs : List Char) :
    closeUpAfter comma (g ++ ',' :: cs) = ',' :: closeUpAfter true cs := by
  have hsolid : isBlank ',' = false := by decide
  induction g with
  | nil => exact closeUpAfter_solid hsolid comma cs
  | cons b g ih =>
      have hg' : Blanks g := fun c hc => hg c (by simp [hc])
      have hhead : (trimStart (g ++ ',' :: cs)).head? = some ',' := head_trimStart_blanks hg' (by simp [hsolid])
      simpa [closeUpAfter, hg b (by simp), hhead] using ih hg'

/-- Blanks before a word go if they stand behind a comma, and stay if not. -/
theorem closeUpAfter_blanks_word {g w : List Char} (hg : Blanks g) (hne : w ≠ []) (hw : Token.Plain w) (comma : Bool)
    (cs : List Char) :
    closeUpAfter comma (g ++ (w ++ cs)) = (if comma then [] else g) ++ (w ++ closeUpAfter false cs) := by
  induction g with
  | nil => simpa using closeUpAfter_word hne hw comma cs
  | cons b g ih =>
      have hg' : Blanks g := fun c hc => hg c (by simp [hc])
      have hhead : (trimStart (g ++ (w ++ cs))).head? ≠ some ',' := by
        obtain ⟨c, w, rfl⟩ := List.exists_cons_of_ne_nil hne
        have hc := hw c (by simp)
        rw [head_trimStart_blanks hg' (by simp [hc.1])]
        simp [hc.2]
      have ih := ih hg'
      cases comma <;> simpa [closeUpAfter, hg b (by simp), hhead] using ih

theorem blanks_closeUpAfter {g : List Char} (hg : Blanks g) (comma : Bool) : Blanks (closeUpAfter comma g) := by
  induction g with
  | nil => simp [closeUpAfter, Blanks]
  | cons b g ih =>
      have hb := hg b (by simp)
      have ih := ih fun c hc => hg c (by simp [hc])
      rw [closeUpAfter, if_pos hb]
      split
      · exact ih
      · exact List.forall_mem_cons.mpr ⟨hb, ih⟩

/-! ## Lexemes of a closed-up text -/

/-- A text with lexemes starts with the first of them, behind blanks. -/
theorem Lexed.cons_inv {cs t : List Char} {ts : List (List Char)} (h : Lexed cs (t :: ts)) :
    ∃ g rest, Blanks g ∧ cs = g ++ (t ++ rest) ∧ Lexed rest ts ∧ (t ≠ [','] → Ends rest) := by
  generalize hts : t :: ts = lexemes at h
  induction h with
  | nil => cases hts
  | blank hb _ ih =>
      obtain ⟨g, rest, hg, rfl, h⟩ := ih hts
      exact ⟨_ :: g, rest, List.forall_mem_cons.mpr ⟨hb, hg⟩, rfl, h⟩
  | comma h _ =>
      cases hts
      exact ⟨[], _, by simp [Blanks], rfl, h, fun hne => absurd rfl hne⟩
  | word _ _ hr h _ =>
      cases hts
      exact ⟨[], _, by simp [Blanks], rfl, h, fun _ => hr⟩

theorem Lexed.nil_inv {cs : List Char} (h : Lexed cs []) : Blanks cs := by
  generalize hts : ([] : List (List Char)) = lexemes at h
  induction h with
  | nil => simp [Blanks]
  | blank hb _ ih => exact List.forall_mem_cons.mpr ⟨hb, ih hts⟩
  | comma _ _ => cases hts
  | word _ _ _ _ _ => cases hts

theorem ends_closeUpAfter {cs : List Char} (h : Ends cs) : Ends (closeUpAfter false cs) := by
  cases cs with
  | nil => simp [closeUpAfter, Ends]
  | cons c cs =>
      rcases h c rfl with hb | rfl
      · rw [closeUpAfter, if_pos hb]
        split
        · -- the blank goes because of the comma after it, which ends the word as well
          rename_i hcomma
          obtain ⟨g, hg, hcs, -⟩ := exists_trimStart cs
          obtain ⟨rest, hrest⟩ := List.head?_eq_some_iff.mp (by simpa using hcomma)
          rw [hcs, hrest, closeUpAfter_blanks_comma hg]
          simp [Ends]
        · simp [Ends, hb]
      · rw [closeUpAfter_solid (by decide)]
        simp [Ends]

theorem Lexed.closeUpAfter {cs : List Char} {ts : List (List Char)} (h : Lexed cs ts) (comma : Bool) :
    Lexed (Line.closeUpAfter comma cs) ts := by
  induction h generalizing comma with
  | nil => exact .nil
  | blank hb _ ih =>
      rw [Line.closeUpAfter, if_pos hb]
      split
      · exact ih comma
      · exact .blank hb (ih comma)
  | comma _ ih =>
      rw [closeUpAfter_solid (by decide)]
      exact .comma (ih _)
  | word hne hw hr _ ih =>
      rw [closeUpAfter_word hne hw]
      exact .word hne hw (ends_closeUpAfter hr) (ih false)

/-- The operands of a closed-up text are spelled behind blanks or behind one comma each. -/
theorem spelled_closeUpAfter {ts : List Token} (hw : ∀ t ∈ ts, IsWord t) {cs : List Char}
    (h : Lexed cs (ts.flatMap lexemesOf)) (hends : Ends cs) :
    ∃ rest after, closeUpAfter false cs = rest ++ after ∧ Token.Spelled ts rest ∧ Blanks after := by
  induction ts generalizing cs with
  | nil => exact ⟨[], _, rfl, .nil, blanks_closeUpAfter h.nil_inv false⟩
  | cons t ts ih =>
      obtain ⟨hne, hplain⟩ := hw t (by simp)
      have ih := @ih (fun x hx => hw x (by simp [hx]))
      obtain ⟨chars, comma⟩ := t
      cases comma with
      | false =>
          obtain ⟨g, rest, hg, rfl, hrest, hr⟩ := Lexed.cons_inv (t := chars) h
          obtain ⟨ops, after, heq, hops, ha⟩ := ih hrest (hr hplain.ne_comma)
          have hgap : g ≠ [] := by
            rintro rfl
            obtain ⟨c, chars, rfl⟩ := List.exists_cons_of_ne_nil hne
            have hc := hplain c (by simp)
            rcases hends c rfl with hb | hcomma
            · rw [hc.1] at hb
              cases hb
            · exact hc.2 hcomma
          refine ⟨g ++ chars ++ ops, after, ?_, .space hgap hg hplain hops, ha⟩
          rw [closeUpAfter_blanks_word hg hne hplain, heq]
          simp
      | true =>
          obtain ⟨g, rest, hg, rfl, hrest, -⟩ := Lexed.cons_inv (t := [',']) h
          obtain ⟨g', rest', hg', rfl, hrest', hr⟩ := Lexed.cons_inv (t := chars) hrest
          obtain ⟨ops, after, heq, hops, ha⟩ := ih hrest' (hr hplain.ne_comma)
          refine ⟨',' :: chars ++ ops, after, ?_, .comma hplain hops, ha⟩
          rw [List.singleton_append, closeUpAfter_blanks_comma hg, closeUpAfter_blanks_word hg' hne hplain, heq]
          simp

end Line

/-! ## Reading lexemes -/

namespace Instruction

/-- What lexemes are read as, if no needless blank stands between them. -/
inductive Read : List (List Char) → Instruction → Prop
  | silent : Read [] comment
  | statement {l head ts i} : Layout.ofMnemonic? head = some l → (∀ t ∈ ts, Line.IsWord t) →
      l.shapeFault? ts = none → ofTokens l ts = .ok i → Read (head :: ts.flatMap Line.lexemesOf) i

variable {ts : List (List Char)} {i : Instruction}

theorem Read.ofLine_spell (h : Read ts i) : ofLine (String.ofList (Line.spell ts)) = .ok i := by
  cases h with
  | silent => decide
  | @statement l head ts _ hm hw hshape hi =>
      obtain ⟨-, -, hcomma⟩ := Layout.shapeFault?_eq_none.mp hshape
      have hfirst := (Layout.wellFormed_of_mem (Layout.ofMnemonic?_eq_some.mp hm).1).first_comma hcomma
      have hblank : Blanks [] := by simp [Blanks]
      rw [Line.spell_lexemes (Layout.ofMnemonic?_plain hm) hw hfirst,
        ofLine_of_spelled hm (Line.spelled_spelling hw) hshape hblank hblank (by simp), hi]

theorem Read.ofLine_closeUp (h : Read ts i) {cs : List Char} (hcs : Line.Lexed cs ts) :
    ofLine (String.ofList (Line.closeUp cs)) = .ok i := by
  cases h with
  | silent =>
      refine ofLine_of_silent (Line.silent_of_blanks ?_)
      rw [String.toList_ofList]
      exact Line.blanks_closeUpAfter hcs.nil_inv false
  | @statement l head ts _ hm hw hshape hi =>
      have hne := Layout.ofMnemonic?_ne_nil hm
      have hplain := Layout.ofMnemonic?_plain hm
      obtain ⟨g, rest, hg, rfl, hrest, hends⟩ := hcs.cons_inv
      obtain ⟨ops, after, heq, hops, ha⟩ := Line.spelled_closeUpAfter hw hrest (hends hplain.ne_comma)
      refine (ofLine_of_spelled hm hops hshape hg ha ?_).trans hi
      rw [String.toList_ofList, Line.closeUp, Line.closeUpAfter_blanks_word hg hne hplain, heq]
      simp

/-- A line that is read as an instruction with a word has lexemes that are read as the instruction. -/
theorem exists_read_of_statement {s : String} (h : ofLine s = .ok i) (hi : i.op ≠ .comment) :
    ∃ ts, Line.Lexed s.toList ts ∧ Read ts i := by
  obtain ⟨before, cs, after, l, head, rest, hb, ha, hs, hsplit, hops⟩ := split_of_ofLine h hi
  obtain ⟨hshape, htokens⟩ := ofOperands_eq_ok.mp hops
  obtain ⟨-, hne, -⟩ := Layout.shapeFault?_eq_none.mp hshape
  have hspelled := Token.spelled_scan hsplit.breaks hsplit.last
  have hlexed := Line.Lexed.word (Layout.ofMnemonic?_ne_nil hsplit.mnemonic) (Layout.ofMnemonic?_plain hsplit.mnemonic)
    (Line.ends_spelled hspelled ha) (Line.lexed_spelled hspelled hne ha)
  refine ⟨_, ?_, .statement hsplit.mnemonic (fun t ht => ⟨hne t ht, hspelled.plain t ht⟩) hshape htokens⟩
  rw [hs, hsplit.eq, List.append_assoc before, List.append_assoc head]
  exact hlexed.blanks hb

theorem exists_read {s : String} (h : ofLine s = .ok i) (hs : Line.Unmarked s.toList) :
    ∃ ts, Line.Lexed s.toList ts ∧ Read ts i := by
  by_cases hi : i.op = .comment
  · have hsilent := silent_of_ofLine h hi
    rw [ofLine_of_silent hsilent] at h
    cases h
    rw [← Line.blanks_code, hs.code_eq] at hsilent
    exact ⟨[], Line.lexed_of_blanks hsilent, .silent⟩
  · exact exists_read_of_statement h hi

/-! ## Lines -/

theorem ofLine_tidy_iff {cs : List Char} :
    ofLine (String.ofList (Line.tidy cs)) = .ok i ↔ Read (Line.lexemes (Line.code cs)) i := by
  refine ⟨fun h => ?_, Read.ofLine_spell⟩
  obtain ⟨ts, hts, hread⟩ := exists_read h (by rw [String.toList_ofList]; exact Line.unmarked_tidy cs)
  rw [String.toList_ofList] at hts
  rwa [← (Line.lexed_tidy cs).lexemes_eq, hts.lexemes_eq]

theorem ofLine_closeUp_iff {cs : List Char} :
    ofLine (String.ofList (Line.closeUp (Line.code cs))) = .ok i ↔ Read (Line.lexemes (Line.code cs)) i := by
  have hcode := Line.lexed_lexemes (Line.code cs)
  have hclosed := hcode.closeUpAfter false
  refine ⟨fun h => ?_, fun h => h.ofLine_closeUp hcode⟩
  obtain ⟨ts, hts, hread⟩ := exists_read h (by
    rw [String.toList_ofList]
    exact hcode.unmarked hclosed (Line.unmarked_code cs))
  rw [String.toList_ofList, Line.closeUp] at hts
  rwa [← hclosed.lexemes_eq, hts.lexemes_eq]

end Instruction

/-! ## Lines that are read as they stand -/

/-- The character is a blank, a comma, a letter or a digit. -/
def Line.Usual (c : Char) : Prop := isBlank c = true ∨ c = ',' ∨ c.isAlphanum = true

theorem Line.Usual.not_marker {c : Char} (h : Usual c) : c ≠ ';' ∧ c ≠ '#' ∧ c ≠ '/' := by
  refine ⟨?_, ?_, ?_⟩
  all_goals
    rintro rfl
    revert h
    simp only [Usual]
    decide

theorem Separator.Written.usual {s : Separator} {sep : List Char} (h : s.Written sep) : ∀ c ∈ sep, Line.Usual c := by
  intro c hc
  cases h with
  | space _ hg => exact .inl (hg c hc)
  | comma => exact .inr (.inl (List.mem_singleton.mp hc))

theorem Register.Written.isAlphanum {r : Register} {c : Char} (h : r.Written c) : c.isAlphanum = true := by
  cases h with
  | numbered _ _ hc => exact hc.isAlphanum
  | random hc => exact hc.isAlphanum
  | immediate hc => exact hc.isAlphanum

theorem OperandsWritten.usual {os : List Operand} {regs : List Register} {cs : List Char}
    (h : OperandsWritten os regs cs) : ∀ c ∈ cs, Line.Usual c := by
  induction h with
  | nil => simp
  | cons hsep hr _ ih =>
      exact List.forall_mem_append.mpr ⟨hsep.usual, List.forall_mem_cons.mpr ⟨.inr (.inr hr.isAlphanum), ih⟩⟩

theorem LiteralWritten.usual {rule : PayloadRule} {literal : Option UInt16} {cs : List Char}
    (h : LiteralWritten rule literal cs) : ∀ c ∈ cs, Line.Usual c := by
  cases h with
  | absent _ => simp
  | present _ _ hg hv =>
      obtain ⟨ds, hds, -⟩ := hv.value
      refine List.forall_mem_append.mpr ⟨fun c hc => .inl (hg c hc), fun c hc => ?_⟩
      obtain ⟨d, -, hd⟩ := exists_right_of_forall₂ hds hc
      exact .inr (.inr hd.isAlphanum)

/-- A line that is read as an instruction with a word holds no comment. -/
theorem Instruction.code_of_statement {s : String} {i : Instruction} (h : ofLine s = .ok i) (hi : i.op ≠ .comment) :
    Line.code s.toList = s.toList := by
  obtain ⟨l, before, head, ops, tail, after, hl, -, -, hm, hops, hlit, hb, ha, hs⟩ := parts_of_ofLine h hi
  have hhead : ∀ c ∈ head, Line.Usual c := fun c hc =>
    .inr (.inr (Layout.ofMnemonic?_isAlphanum ((mnemonicWritten_iff hl).mp hm) c hc))
  have husual : ∀ c ∈ s.toList, Line.Usual c := by
    rw [hs]
    simp only [List.forall_mem_append]
    exact ⟨⟨fun c hc => .inl (hb c hc), ⟨hhead, hops.usual⟩, hlit.usual⟩, fun c hc => .inl (ha c hc)⟩
  exact Line.code_of_no_marker fun c hc => (husual c hc).not_marker

theorem Instruction.ofLine_tidy_of_ofLine {s : String} {i : Instruction} (h : ofLine s = .ok i) :
    ofLine (String.ofList (Line.tidy s.toList)) = .ok i := by
  by_cases hi : i.op = .comment
  · have hsilent := silent_of_ofLine h hi
    rw [← h, ofLine_of_silent hsilent]
    refine ofLine_of_silent ?_
    rw [String.toList_ofList]
    exact Line.silent_tidy.mpr hsilent
  · obtain ⟨ts, hts, hread⟩ := exists_read_of_statement h hi
    rw [ofLine_tidy_iff, code_of_statement h hi, hts.lexemes_eq]
    exact hread

/-- A tidy line stands for a word, or for none, exactly if the part of the line before its first marker does so once the
blanks around its commas are gone. A line that stands for a word, or for none, as it is does so when it is tidy. -/
theorem Word.ofLine_tidy_iff_closeUp (s : String) :
    (∃ code rest, Line.Cut s.toList code rest ∧
        ∀ x, Word.ofLine (String.ofList (Line.tidy s.toList)) = .ok x ↔
          Word.ofLine (String.ofList (Line.closeUp code)) = .ok x) ∧
      ∀ x, Word.ofLine s = .ok x → Word.ofLine (String.ofList (Line.tidy s.toList)) = .ok x := by
  refine ⟨?_, fun x h => ?_⟩
  · obtain ⟨rest, hcut⟩ := Line.exists_cut s.toList
    refine ⟨_, rest, hcut, fun x => ?_⟩
    simp only [Word.ofLine, bind_eq_ok, Instruction.ofLine_tidy_iff, Instruction.ofLine_closeUp_iff]
  · obtain ⟨i, hi, hx⟩ := bind_eq_ok.mp h
    exact bind_eq_ok.mpr ⟨i, Instruction.ofLine_tidy_of_ofLine hi, hx⟩

/-- A line with a blank beside a comma is read only when it is tidy, and one that can be read keeps its word. A comma
right behind the mnemonic is refused either way. -/
theorem Word.ofLine_tidy_iff_closeUp_plot :
    let read := fun cs : String => Word.ofLine (String.ofList (Line.tidy cs.toList))
    Word.ofLine "\twop a,b  1" = .ok (some ⟨0xA0AB0001⟩) ∧ read "\twop a,b  1" = .ok (some ⟨0xA0AB0001⟩) ∧
      (∃ f, Word.ofLine "wop a , b 1 ; plot" = .error f) ∧ read "wop a , b 1 ; plot" = .ok (some ⟨0xA0AB0001⟩) ∧
      Line.closeUp "jmp , 1".toList = "jmp,1".toList ∧ ∃ f, read "jmp , 1" = .error f := by
  intro read
  have hword : Word.ofLine "\twop a,b  1" = .ok (some ⟨0xA0AB0001⟩) := by decide
  refine ⟨hword, (Word.ofLine_tidy_iff_closeUp _).2 _ hword, ⟨_, rfl⟩, ?_, by decide, ⟨_, rfl⟩⟩
  decide

end HexAsm
