import HexAsm.Proofs.Lemmas.Lexemes
import Mathlib.Data.List.Chain

/-!
# The normal form of a line

Tidying keeps the lexemes before the first comment marker and nothing else: the tidy line has the same lexemes, spaced
in one way. So it is left as it is by tidying again, and two lines have the same tidy form exactly if they have the same
lexemes.
-/

namespace HexAsm.Line

open HexAsm.Text

/-- Every blank of the text is a space. -/
def Spaced (cs : List Char) : Prop := ∀ c ∈ cs, isBlank c = true → c = ' '

/-- The form of a tidy line: no marker, no blank but single spaces between lexemes, none after a comma, and none before
a comma but the one that separates it from the first word. -/
structure Normal (cs : List Char) : Prop where
  unmarked : Unmarked cs
  spaced : Spaced cs
  trimmed : Trimmed cs
  single : ¬ [' ', ' '] <:+: cs
  after_comma : ¬ [',', ' '] <:+: cs
  before_comma : ∀ u v, cs = u ++ ' ' :: ',' :: v → ∃ t, Lexed u [t] ∧ t ≠ [',']

/-- The lexemes of a line, up to its first comment marker. -/
def Holds (cs : List Char) (ts : List (List Char)) : Prop := ∃ before rest, Cut cs before rest ∧ Lexed before ts

theorem lexed_iff {cs : List Char} {ts : List (List Char)} : Lexed cs ts ↔ ts = lexemes cs :=
  ⟨fun h => h.lexemes_eq.symm, fun h => h ▸ lexed_lexemes cs⟩

theorem holds_iff {cs : List Char} {ts : List (List Char)} : Holds cs ts ↔ ts = lexemes (code cs) := by
  constructor
  · rintro ⟨before, rest, hcut, h⟩
    rw [hcut.code_eq]
    exact lexed_iff.mp h
  · intro h
    obtain ⟨rest, hcut⟩ := exists_cut cs
    exact ⟨code cs, rest, hcut, lexed_iff.mpr h⟩

/-! ## Characters of a spelled text -/

theorem Lexeme.ne_nil {t : List Char} (h : Lexeme t) : t ≠ [] := by
  rcases h with rfl | ⟨hne, -⟩
  · simp
  · exact hne

theorem Lexeme.solid {t : List Char} (h : Lexeme t) : Solid t := by
  rcases h with rfl | ⟨-, hw⟩
  · simp [Solid]
    decide
  · exact hw.solid

theorem Lexeme.spaced {t : List Char} (h : Lexeme t) : Spaced t := by
  intro c hc hb
  rw [h.solid c hc] at hb
  cases hb

theorem spaced_spellAfter {ts : List (List Char)} (h : ∀ t ∈ ts, Lexeme t) (previous : List Char) :
    Spaced (spellAfter previous ts) := by
  induction ts generalizing previous with
  | nil => simp [spellAfter, Spaced]
  | cons t ts ih =>
      have ht := (h t (by simp)).spaced
      rw [spellAfter]
      refine List.forall_mem_append.mpr ⟨?_, ih (fun x hx => h x (by simp [hx])) t⟩
      split
      · exact ht
      · exact List.forall_mem_cons.mpr ⟨fun _ => rfl, ht⟩

theorem spaced_spell {ts : List (List Char)} (h : ∀ t ∈ ts, Lexeme t) : Spaced (spell ts) := by
  cases ts with
  | nil => simp [spell, Spaced]
  | cons t ts =>
      have hfirst := (h t (by simp)).spaced
      have hts : ∀ x ∈ ts, Lexeme x := fun x hx => h x (by simp [hx])
      rcases spell_cons t ts with heq | ⟨-, us, rfl, heq⟩
      · rw [heq]
        exact List.forall_mem_append.mpr ⟨hfirst, spaced_spellAfter hts t⟩
      · have hus : ∀ x ∈ us, Lexeme x := fun x hx => hts x (by simp [hx])
        have hcomma := List.forall_mem_append.mpr ⟨(hts [','] (by simp)).spaced, spaced_spellAfter hus [',']⟩
        rw [heq]
        exact List.forall_mem_append.mpr ⟨hfirst, List.forall_mem_cons.mpr ⟨fun _ => rfl, hcomma⟩⟩

/-! ## Neighbours in a spelled text -/

theorem Lexeme.plain {t : List Char} (h : Lexeme t) (hc : t ≠ [',']) : Token.Plain t := by
  rcases h with rfl | ⟨-, hw⟩
  · exact absurd rfl hc
  · exact hw

theorem Lexeme.mem_of_head? {t : List Char} (h : Lexeme t) {c : Char} {cs : List Char} (hc : c ∈ (t ++ cs).head?) :
    c ∈ t := by
  obtain ⟨d, t, rfl⟩ := List.exists_cons_of_ne_nil h.ne_nil
  cases hc
  exact List.mem_cons_self ..

/-- The second character may follow the first in a tidy line, from its second lexeme on. -/
def Follows (a b : Char) : Prop := (b = ' ' → a ≠ ' ' ∧ a ≠ ',') ∧ (b = ',' → a ≠ ' ')

theorem ne_space {c : Char} (h : isBlank c = false) : c ≠ ' ' := by
  rintro rfl
  exact absurd h (by decide)

theorem follows_of_solid {a b : Char} (ha : isBlank a = false) (hb : isBlank b = false) : Follows a b :=
  ⟨fun h => absurd h (ne_space hb), fun _ => ne_space ha⟩

theorem isChain_of_solid {t : List Char} (h : Solid t) : t.IsChain Follows :=
  (List.pairwise_of_forall_mem_list fun a ha b hb => follows_of_solid (h a ha) (h b hb)).isChain

theorem isChain_spellAfter {ts : List (List Char)} (h : ∀ t ∈ ts, Lexeme t) {t : List Char} (ht : Lexeme t) :
    (t ++ spellAfter t ts).IsChain Follows := by
  induction ts generalizing t with
  | nil => simpa [spellAfter] using isChain_of_solid ht.solid
  | cons u us ih =>
      have hu := h u (by simp)
      have ih := ih (fun x hx => h x (by simp [hx])) hu
      rw [spellAfter]
      split
      · refine (isChain_of_solid ht.solid).append ih fun a ha b hb => ?_
        exact follows_of_solid (ht.solid a (List.mem_of_getLast? ha)) (hu.solid b (hu.mem_of_head? hb))
      · -- a space stands between two words
        rename_i hc
        rw [not_or] at hc
        have hspace : (' ' :: (u ++ spellAfter u us)).IsChain Follows := by
          refine List.isChain_cons.mpr ⟨fun b hb => ?_, ih⟩
          have hb := hu.plain hc.1 b (hu.mem_of_head? hb)
          exact ⟨fun h => absurd h (ne_space hb.1), fun h => absurd h hb.2⟩
        refine (isChain_of_solid ht.solid).append hspace fun a ha b hb => ?_
        have ha := ht.plain hc.2 a (List.mem_of_getLast? ha)
        cases hb
        exact ⟨fun _ => ⟨ne_space ha.1, ha.2⟩, fun h => absurd h (by decide)⟩

/-- The last character of a spelled text is the last character of a lexeme. -/
theorem last_spellAfter {ts : List (List Char)} (h : ∀ t ∈ ts, Lexeme t) {t : List Char} (ht : Lexeme t)
    (before : List Char) : ∀ c ∈ (before ++ (t ++ spellAfter t ts)).getLast?, isBlank c = false := by
  induction ts generalizing t before with
  | nil => simpa [spellAfter] using ht.solid.last_append ht.ne_nil before
  | cons u us ih =>
      have ih := ih (fun x hx => h x (by simp [hx])) (h u (by simp))
      rw [spellAfter]
      split
      · simpa using ih (before ++ t)
      · simpa using ih (before ++ t ++ [' '])

/-! ## The normal form -/

theorem trimmed_spell {ts : List (List Char)} (h : ∀ t ∈ ts, Lexeme t) : Trimmed (spell ts) := by
  cases ts with
  | nil => simp [spell, Trimmed]
  | cons t ts =>
      have ht := h t (by simp)
      rcases spell_cons t ts with heq | ⟨-, us, rfl, heq⟩
      · rw [heq]
        exact ⟨fun c hc => ht.solid c (ht.mem_of_head? hc), last_spellAfter (fun x hx => h x (by simp [hx])) ht []⟩
      · have hus : ∀ x ∈ us, Lexeme x := fun x hx => h x (by simp [hx])
        have hlast := last_spellAfter hus (.inl rfl) (t ++ [' '])
        rw [List.append_assoc, List.singleton_append] at hlast
        rw [heq]
        exact ⟨fun c hc => ht.solid c (ht.mem_of_head? hc), hlast⟩

/-- Before a space of a spelled text stands neither a space nor a comma. -/
theorem isChain_spell {ts : List (List Char)} (h : ∀ t ∈ ts, Lexeme t) :
    (spell ts).IsChain fun a b => b = ' ' → a ≠ ' ' ∧ a ≠ ',' := by
  cases ts with
  | nil => exact .nil
  | cons t ts =>
      have ht := h t (by simp)
      rcases spell_cons t ts with heq | ⟨hc, us, rfl, heq⟩
      · rw [heq]
        exact (isChain_spellAfter (fun x hx => h x (by simp [hx])) ht).imp fun _ _ hf => hf.1
      · have hus : ∀ x ∈ us, Lexeme x := fun x hx => h x (by simp [hx])
        have hcomma := (isChain_spellAfter hus (.inl rfl)).imp fun _ _ hf => hf.1
        have hfirst := (isChain_of_solid ht.solid).imp fun _ _ hf => hf.1
        rw [heq]
        refine hfirst.append (List.isChain_cons.mpr ⟨fun b hb hs => ?_, hcomma⟩) fun a ha b hb hs => ?_
        · cases hb
          exact absurd hs (by decide)
        · have ha := ht.plain hc a (List.mem_of_getLast? ha)
          exact ⟨ne_space ha.1, ha.2⟩

theorem not_space_comma {cs u v : List Char} (h : cs.IsChain Follows) : cs ≠ u ++ ' ' :: ',' :: v := by
  rintro rfl
  exact (List.isChain_append_cons_cons.mp h).2.1.2 rfl rfl

/-- A space stands before a comma only after a word that is the first lexeme. -/
theorem before_comma_spell {ts : List (List Char)} (h : ∀ t ∈ ts, Lexeme t) {u v : List Char}
    (hs : spell ts = u ++ ' ' :: ',' :: v) : ∃ t, Lexed u [t] ∧ t ≠ [','] := by
  cases ts with
  | nil => simp [spell] at hs
  | cons t ts =>
      have ht := h t (by simp)
      rcases spell_cons t ts with heq | ⟨hc, us, rfl, heq⟩
      · rw [heq] at hs
        exact absurd hs (not_space_comma (isChain_spellAfter (fun x hx => h x (by simp [hx])) ht))
      · have hus : ([','] ++ spellAfter [','] us).IsChain Follows :=
          isChain_spellAfter (fun x hx => h x (by simp [hx])) (.inl rfl)
        have htu : Lexed t [t] := by simpa using ht.lexed_append .nil (by simp [Ends])
        rw [heq] at hs
        -- the space before the comma is the one behind the first word, since there is no other such place
        rcases List.append_eq_append_iff.mp hs with ⟨w, rfl, hw⟩ | ⟨w, rfl, hw⟩
        · cases w with
          | nil => exact ⟨t, by simpa using htu, hc⟩
          | cons c w => exact absurd (List.cons.inj hw).2 (not_space_comma hus)
        · cases w with
          | nil => exact ⟨u, by simpa using htu, by simpa using hc⟩
          | cons c w =>
              have hmem : ' ' ∈ u ++ c :: w := by
                rw [← (List.cons.inj hw).1]
                simp
              exact absurd (ht.solid ' ' hmem) (by decide)

theorem normal_tidy (cs : List Char) : Normal (tidy cs) where
  unmarked := unmarked_tidy cs
  spaced := spaced_spell (lexed_lexemes (code cs)).lexeme
  trimmed := trimmed_spell (lexed_lexemes (code cs)).lexeme
  single h := by
    have hpair := List.IsChain.infix (isChain_spell (lexed_lexemes (code cs)).lexeme) h
    exact (List.isChain_pair.mp hpair rfl).1 rfl
  after_comma h := by
    have hpair := List.IsChain.infix (isChain_spell (lexed_lexemes (code cs)).lexeme) h
    exact (List.isChain_pair.mp hpair rfl).2 rfl
  before_comma u v h := before_comma_spell (lexed_lexemes (code cs)).lexeme h

theorem lexemes_tidy (cs : List Char) : lexemes (tidy cs) = lexemes (code cs) := (lexed_tidy cs).lexemes_eq

theorem tidy_tidy (cs : List Char) : tidy (tidy cs) = tidy cs := by
  rw [tidy, (unmarked_tidy cs).code_eq, lexemes_tidy, ← tidy]

theorem tidy_eq_iff {cs ds : List Char} : tidy cs = tidy ds ↔ lexemes (code cs) = lexemes (code ds) := by
  constructor
  · intro h
    rw [← lexemes_tidy, h, lexemes_tidy]
  · intro h
    rw [tidy, h, ← tidy]

/-- The tidy form of a line is normal and has exactly the lexemes of the line up to its first marker, and tidying leaves
it as it is. Two lines have the same tidy form exactly if they have the same lexemes up to their first markers. -/
theorem tidy_is_normal_form :
    (∀ cs, Normal (tidy cs) ∧ (∃! ts, Holds cs ts) ∧ (∀ ts, Lexed (tidy cs) ts ↔ Holds cs ts) ∧
        tidy (tidy cs) = tidy cs) ∧
      ∀ cs ds, tidy cs = tidy ds ↔ ∃ ts, Holds cs ts ∧ Holds ds ts := by
  refine ⟨fun cs => ⟨normal_tidy cs, ⟨_, holds_iff.mpr rfl, fun ts h => holds_iff.mp h⟩, fun ts => ?_, tidy_tidy cs⟩,
    fun cs ds => ?_⟩
  · rw [lexed_iff, lexemes_tidy, holds_iff]
  · simp only [holds_iff, exists_eq_left, tidy_eq_iff]

example : tidy "add\t1 ,, 2 , F# odd".toList = "add 1,,2,F".toList ∧ tidy "JMP,1 // far".toList = "JMP ,1".toList := by
  decide

end HexAsm.Line
