import HexAsm.Proofs.Lemmas.Tokens

/-!
# Tidy lines

The lexemes of a line, one by one, and a form that tidying leaves as it is: a word, then words that each stand behind
one space or one comma.
-/

namespace HexAsm.Line

open HexAsm.Text

/-! ## Comments -/

theorem atMarker_eq_false {c : Char} (h : c ≠ ';' ∧ c ≠ '#' ∧ c ≠ '/') (cs : List Char) :
    atMarker (c :: cs) = false := by
  unfold atMarker
  split <;> simp_all

theorem code_of_no_marker {cs : List Char} (h : ∀ c ∈ cs, c ≠ ';' ∧ c ≠ '#' ∧ c ≠ '/') : code cs = cs := by
  induction cs with
  | nil => rfl
  | cons c cs ih =>
      rw [code, atMarker_eq_false (h c (by simp)), ih (fun x hx => h x (by simp [hx]))]
      simp

/-! ## Lexemes -/

theorem lexemes_blank {b : Char} (hb : isBlank b = true) (cs : List Char) : lexemes (b :: cs) = lexemes cs := by
  have hc : b ≠ ',' := by
    rintro rfl
    exact absurd hb (by decide)
  simp [lexemes, hc, words_blank hb]

theorem lexemes_comma (cs : List Char) : lexemes (',' :: cs) = [','] :: lexemes cs := by
  have hs : isBlank ' ' = true := by decide
  have hw : Solid [','] := by simp [Solid]; decide
  simp only [lexemes, List.flatMap_cons, if_true, List.cons_append, List.nil_append, words_blank hs]
  rw [← List.singleton_append, words_solid (by simp) hw (by simp [Breaks, hs]), words_blank hs]

/-- The text is empty or starts with a blank or a comma, so that a lexeme before it ends there. -/
def Ends (cs : List Char) : Prop := ∀ c ∈ cs.head?, isBlank c = true ∨ c = ','

theorem lexemes_word {w rest : List Char} (hne : w ≠ []) (hw : Token.Plain w) (hr : Ends rest) :
    lexemes (w ++ rest) = w :: lexemes rest := by
  have hflat : w.flatMap (fun c => if c = ',' then [' ', ',', ' '] else [c]) = w := by
    clear hne
    induction w with
    | nil => rfl
    | cons c w ih => simp [(hw c (by simp)).2, ih (fun x hx => hw x (by simp [hx]))]
  have hbreaks : Breaks (rest.flatMap fun c => if c = ',' then [' ', ',', ' '] else [c]) := by
    cases rest with
    | nil => simp [Breaks]
    | cons c rest =>
        rcases hr c (by simp) with hc | rfl
        · have : c ≠ ',' := by
            rintro rfl
            exact absurd hc (by decide)
          simpa [Breaks, this] using hc
        · simp [Breaks]
          decide
  rw [lexemes, List.flatMap_append, hflat, words_solid hne hw.solid hbreaks, ← lexemes]

/-- The lexemes of a text: its commas, and its longest runs of characters that are neither blank nor a comma. -/
inductive Lexed : List Char → List (List Char) → Prop
  | nil : Lexed [] []
  | blank {b cs ts} : isBlank b = true → Lexed cs ts → Lexed (b :: cs) ts
  | comma {cs ts} : Lexed cs ts → Lexed (',' :: cs) ([','] :: ts)
  | word {w cs ts} : w ≠ [] → Token.Plain w → Ends cs → Lexed cs ts → Lexed (w ++ cs) (w :: ts)

theorem Lexed.lexemes_eq {cs : List Char} {ts : List (List Char)} (h : Lexed cs ts) : lexemes cs = ts := by
  induction h with
  | nil => rfl
  | blank hb _ ih => rw [lexemes_blank hb, ih]
  | comma _ ih => rw [lexemes_comma, ih]
  | word hne hw hr _ ih => rw [lexemes_word hne hw hr, ih]

theorem exists_lexed (cs : List Char) : ∃ ts, Lexed cs ts := by
  induction cs with
  | nil => exact ⟨[], .nil⟩
  | cons c cs ih =>
      obtain ⟨ts, h⟩ := ih
      cases hb : isBlank c with
      | true => exact ⟨ts, .blank hb h⟩
      | false =>
          by_cases hc : c = ','
          · subst hc
            exact ⟨_, .comma h⟩
          · have hplain : Token.Plain [c] := by simpa [Token.Plain] using ⟨hb, hc⟩
            -- the character starts a word of its own, or goes on the word that follows
            cases h with
            | nil => exact ⟨_, .word (by simp) hplain (by simp [Ends]) .nil⟩
            | blank hb h => exact ⟨_, .word (w := [c]) (by simp) hplain (by simp [Ends, hb]) (.blank hb h)⟩
            | comma h => exact ⟨_, .word (w := [c]) (by simp) hplain (by simp [Ends]) (.comma h)⟩
            | @word w cs ts hne hw hr h =>
                have hcw : Token.Plain (c :: w) := List.forall_mem_cons.mpr ⟨⟨hb, hc⟩, hw⟩
                exact ⟨_, .word (by simp) hcw hr h⟩

theorem Lexed.blanks {g cs : List Char} {ts : List (List Char)} (h : Lexed cs ts) (hg : Blanks g) :
    Lexed (g ++ cs) ts := by
  induction g with
  | nil => exact h
  | cons b g ih => exact .blank (hg b (by simp)) (ih fun c hc => hg c (by simp [hc]))

theorem lexed_of_blanks {g : List Char} (hg : Blanks g) : Lexed g [] := by
  simpa using Lexed.nil.blanks hg

theorem lexed_lexemes (cs : List Char) : Lexed cs (lexemes cs) := by
  obtain ⟨ts, h⟩ := exists_lexed cs
  rwa [h.lexemes_eq]

/-! ## Lines in tidy form -/

/-- The tokens, each behind one space or one comma. -/
def spelling (ts : List Token) : List Char := ts.flatMap fun t => (if t.comma then ',' else ' ') :: t.chars

/-- The token is a word without a comma. -/
def IsWord (t : Token) : Prop := t.chars ≠ [] ∧ Token.Plain t.chars

/-- The lexemes of a token behind its separator. -/
def lexemesOf (t : Token) : List (List Char) := if t.comma then [[','], t.chars] else [t.chars]

theorem spelled_spelling {ts : List Token} (h : ∀ t ∈ ts, IsWord t) : Token.Spelled ts (spelling ts) := by
  induction ts with
  | nil => exact .nil
  | cons t ts ih =>
      have ht := (h t (by simp)).2
      have ih := ih (fun x hx => h x (by simp [hx]))
      cases t with
      | mk cs comma =>
          cases comma with
          | false => exact .space (g := [' ']) (by simp) (by simp [Blanks]; decide) ht ih
          | true => exact .comma ht ih

theorem ends_spelled {ts : List Token} {cs after : List Char} (h : Token.Spelled ts cs) (ha : Blanks after) :
    Ends (cs ++ after) := by
  cases h with
  | nil => exact fun c hc => .inl (ha c (List.mem_of_head? hc))
  | @space g _ _ _ hg hgb _ _ =>
      obtain ⟨b, g, rfl⟩ := List.exists_cons_of_ne_nil hg
      simpa [Ends] using .inl (hgb b (by simp))
  | comma _ _ => simp [Ends]

/-- Spelled tokens, with blanks after them, have the lexemes of the tokens. -/
theorem lexed_spelled {ts : List Token} {cs after : List Char} (h : Token.Spelled ts cs) (hne : ∀ t ∈ ts, t.chars ≠ [])
    (ha : Blanks after) : Lexed (cs ++ after) (ts.flatMap lexemesOf) := by
  induction h with
  | nil => exact lexed_of_blanks ha
  | @space g t ts cs _ hgb ht h ih =>
      have hword := Lexed.word (hne ⟨t, false⟩ (by simp)) ht (ends_spelled h ha) (ih fun x hx => hne x (by simp [hx]))
      simpa [lexemesOf] using hword.blanks hgb
  | @comma t ts cs ht h ih =>
      have hword := Lexed.word (hne ⟨t, true⟩ (by simp)) ht (ends_spelled h ha) (ih fun x hx => hne x (by simp [hx]))
      simpa [lexemesOf] using Lexed.comma hword

theorem spellAfter_lexemes {ts : List Token} (h : ∀ t ∈ ts, IsWord t) {previous : List Char}
    (hp : previous ≠ [',']) : spellAfter previous (ts.flatMap lexemesOf) = spelling ts := by
  induction ts generalizing previous with
  | nil => rfl
  | cons t ts ih =>
      have ht := (h t (by simp)).2.ne_comma
      have ih := ih (fun x hx => h x (by simp [hx])) ht
      cases hc : t.comma <;> simp [lexemesOf, spelling, hc, spellAfter, ht, hp, ih]

theorem spell_lexemes {m : List Char} {ts : List Token} (hm : Token.Plain m) (h : ∀ t ∈ ts, IsWord t)
    (hfirst : ∀ t ∈ ts.head?, t.comma = false) : spell (m :: ts.flatMap lexemesOf) = m ++ spelling ts := by
  cases ts with
  | nil => simp [spell, spelling]
  | cons t ts =>
      have hc := hfirst t (by simp)
      have ht := (h t (by simp)).2.ne_comma
      have hts : ∀ x ∈ ts, IsWord x := fun x hx => h x (by simp [hx])
      have hafter := spellAfter_lexemes hts ht
      simp [lexemesOf, hc, spell, hm.ne_comma, hafter, spelling]

/-- A word and tokens behind one space or comma each, the first not behind a comma, are left as they are. -/
theorem tidy_spelling {m : List Char} {ts : List Token} (hm : m ≠ []) (hplain : Token.Plain m)
    (h : ∀ t ∈ ts, IsWord t) (hfirst : ∀ t ∈ ts.head?, t.comma = false)
    (hmark : ∀ c ∈ m ++ spelling ts, c ≠ ';' ∧ c ≠ '#' ∧ c ≠ '/') :
    tidy (m ++ spelling ts) = m ++ spelling ts := by
  have hnil : Blanks [] := by simp [Blanks]
  have hspelled := spelled_spelling h
  have hts := lexed_spelled hspelled (fun t ht => (h t ht).1) hnil
  have hlexed := Lexed.word hm hplain (ends_spelled hspelled hnil) hts
  rw [List.append_nil] at hlexed
  rw [tidy, code_of_no_marker hmark, hlexed.lexemes_eq, spell_lexemes hplain h hfirst]

end HexAsm.Line
