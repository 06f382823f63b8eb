import HexAsm.Assembly.Statement
import HexAsm.Proofs.Lemmas.Blank

/-!
# Operand tokens

The text after a mnemonic spells tokens, each behind blanks or behind one comma. Scanning finds tokens that the text
spells, and it finds exactly these if none of them is empty. In any case it finds the tokens that blanks and commas set
apart.
-/

namespace HexAsm

open HexAsm.Text

/-- What stands before an operand: blanks, or exactly one comma. -/
inductive Separator.Written : Separator → List Char → Prop
  | space {g} : g ≠ [] → Blanks g → Written .space g
  | comma : Written .comma [',']

namespace Token

/-- Neither a blank nor a comma occurs in the text. -/
def Plain (cs : List Char) : Prop := ∀ c ∈ cs, isBlank c = false ∧ c ≠ ','

instance : DecidablePred Plain := fun cs => List.decidableBAll (fun c => isBlank c = false ∧ c ≠ ',') cs

theorem Plain.solid {cs : List Char} (h : Plain cs) : Solid cs := fun c hc => (h c hc).1

theorem Plain.ne_comma {cs : List Char} (h : Plain cs) : cs ≠ [','] := by
  rintro rfl
  exact (h ',' (by simp)).2 rfl

/-- The text spells the tokens: each stands behind blanks, or behind one comma with no blank around it. -/
inductive Spelled : List Token → List Char → Prop
  | nil : Spelled [] []
  | space {g t ts cs} : g ≠ [] → Blanks g → Plain t → Spelled ts cs → Spelled (⟨t, false⟩ :: ts) (g ++ t ++ cs)
  | comma {t ts cs} : Plain t → Spelled ts cs → Spelled (⟨t, true⟩ :: ts) (',' :: t ++ cs)

theorem Spelled.cons {s : Separator} {sep t cs : List Char} {ts : List Token} (hs : s.Written sep) (ht : Plain t)
    (h : Spelled ts cs) : Spelled (⟨t, s == .comma⟩ :: ts) (sep ++ t ++ cs) := by
  cases hs with
  | space hg hgb => exact .space hg hgb ht h
  | comma => exact .comma ht h

theorem Spelled.cons_inv {s : Separator} {t : Token} {ts : List Token} {cs : List Char} (h : Spelled (t :: ts) cs)
    (hs : t.comma = (s == .comma)) :
    ∃ sep rest, s.Written sep ∧ Plain t.chars ∧ cs = sep ++ t.chars ++ rest ∧ Spelled ts rest := by
  cases h with
  | @space g u ts cs hg hgb hu h =>
      have hspace : s = .space := by cases s <;> simp at hs ⊢
      exact ⟨g, cs, hspace ▸ .space hg hgb, hu, rfl, h⟩
  | @comma u ts cs hu h =>
      have hcomma : s = .comma := by cases s <;> simp at hs ⊢
      exact ⟨[','], cs, hcomma ▸ .comma, hu, rfl, h⟩

theorem Spelled.plain {ts : List Token} {cs : List Char} (h : Spelled ts cs) : ∀ t ∈ ts, Plain t.chars := by
  induction h with
  | nil => simp
  | space _ _ ht _ ih => exact List.forall_mem_cons.mpr ⟨ht, ih⟩
  | comma ht _ ih => exact List.forall_mem_cons.mpr ⟨ht, ih⟩

theorem Spelled.breaks {ts : List Token} {cs : List Char} (h : Spelled ts cs)
    (hfirst : ∀ t ∈ ts.head?, t.comma = false) : Breaks cs := by
  cases h with
  | nil => simp [Breaks]
  | @space g t ts cs hg hgb _ _ =>
      obtain ⟨b, g, rfl⟩ := List.exists_cons_of_ne_nil hg
      simpa [Breaks] using hgb b (by simp)
  | comma _ _ => exact absurd (hfirst _ rfl) (by simp)

theorem Spelled.last {ts : List Token} {cs : List Char} (h : Spelled ts cs) (hne : ∀ t ∈ ts, t.chars ≠ []) :
    ∀ c ∈ cs.getLast?, isBlank c = false := by
  induction h with
  | nil => simp
  | @space g t ts cs _ _ ht _ ih =>
      exact last_append (ht.solid.last_append (hne ⟨t, false⟩ (by simp)) g) (ih (fun x hx => hne x (by simp [hx])))
  | @comma t ts cs ht _ ih =>
      exact last_append (ht.solid.last_append (hne ⟨t, true⟩ (by simp)) [',']) (ih (fun x hx => hne x (by simp [hx])))

/-! ## Scanning, character by character -/

/-- The tokens of a text that goes on inside a word. -/
def scanWithin (cs : List Char) : List Token :=
  ofWord (cs.takeWhile (!isBlank ·)) ++ scan (cs.dropWhile (!isBlank ·))

/-- The token is joined by a comma to the one before. -/
def joined (t : Token) : Token := ⟨t.chars, true⟩

/-- The token with more characters at its start. -/
def prepend (cs : List Char) (t : Token) : Token := ⟨cs ++ t.chars, t.comma⟩

theorem ofWord_nil : ofWord [] = [⟨[], false⟩] := rfl

theorem ofWord_comma (cs : List Char) : ofWord (',' :: cs) = ⟨[], false⟩ :: (ofWord cs).modifyHead joined := by
  have hs : (',' :: cs).splitOnP (· == ',') = [] :: cs.splitOnP (· == ',') := by
    simp [List.splitOnP_cons_eq_if_modifyHead]
  rw [ofWord, hs]
  cases hc : cs.splitOnP (· == ',') with
  | nil => exact absurd hc (List.splitOnP_ne_nil _ _)
  | cons t ts => simp [ofWord, hc, joined]

theorem ofWord_cons {c : Char} (h : c ≠ ',') (cs : List Char) :
    ofWord (c :: cs) = (ofWord cs).modifyHead (prepend [c]) := by
  have hs : (c :: cs).splitOnP (· == ',') = (cs.splitOnP (· == ',')).modifyHead (List.cons c) := by
    simp [List.splitOnP_cons_eq_if_modifyHead, h]
  rw [ofWord, hs]
  cases hc : cs.splitOnP (· == ',') with
  | nil => exact absurd hc (List.splitOnP_ne_nil _ _)
  | cons t ts => simp [ofWord, hc, prepend]

theorem ofWord_ne_nil (cs : List Char) : ofWord cs ≠ [] := by
  unfold ofWord
  cases hc : cs.splitOnP (· == ',') with
  | nil => exact absurd hc (List.splitOnP_ne_nil _ _)
  | cons t ts => simp

theorem modifyHead_ofWord_append (f : Token → Token) (cs : List Char) (ts : List Token) :
    (ofWord cs).modifyHead f ++ ts = (ofWord cs ++ ts).modifyHead f := by
  cases hc : ofWord cs with
  | nil => exact absurd hc (ofWord_ne_nil cs)
  | cons t us => simp

theorem scan_blanks {g : List Char} (hg : Blanks g) (cs : List Char) : scan (g ++ cs) = scan cs := by
  rw [scan, words_blanks hg, ← scan]

theorem scan_blank {b : Char} (hb : isBlank b = true) (cs : List Char) : scan (b :: cs) = scan cs := by
  rw [scan, words_blank hb, ← scan]

theorem scan_solid {c : Char} (hc : isBlank c = false) (cs : List Char) : scan (c :: cs) = scanWithin (c :: cs) := by
  have hsplit : c :: cs = (c :: cs).takeWhile (!isBlank ·) ++ (c :: cs).dropWhile (!isBlank ·) :=
    List.takeWhile_append_dropWhile.symm
  have hne : (c :: cs).takeWhile (!isBlank ·) ≠ [] := by simp [hc]
  rw [scan, hsplit, words_solid hne (solid_takeWhile _) (breaks_dropWhile _), List.flatMap_cons, ← scan, ← hsplit,
    scanWithin]

theorem scanWithin_nil : scanWithin [] = [⟨[], false⟩] := rfl

theorem scanWithin_blank {b : Char} (hb : isBlank b = true) (cs : List Char) :
    scanWithin (b :: cs) = ⟨[], false⟩ :: scan cs := by
  simp [scanWithin, hb, ofWord_nil, scan_blank hb]

theorem scanWithin_comma (cs : List Char) :
    scanWithin (',' :: cs) = ⟨[], false⟩ :: (scanWithin cs).modifyHead joined := by
  have hb : isBlank ',' = false := by decide
  simp only [scanWithin, List.takeWhile_cons, List.dropWhile_cons, hb, Bool.not_false, if_true, ofWord_comma,
    List.cons_append, modifyHead_ofWord_append]

theorem scanWithin_cons {c : Char} (hc : isBlank c = false) (h : c ≠ ',') (cs : List Char) :
    scanWithin (c :: cs) = (scanWithin cs).modifyHead (prepend [c]) := by
  simp only [scanWithin, List.takeWhile_cons, List.dropWhile_cons, hc, Bool.not_false, if_true, ofWord_cons h,
    modifyHead_ofWord_append]

theorem scanWithin_append {t : List Char} (ht : Plain t) (cs : List Char) :
    scanWithin (t ++ cs) = (scanWithin cs).modifyHead (prepend t) := by
  induction t with
  | nil =>
      have : prepend [] = id := rfl
      simp [this]
  | cons c t ih =>
      have hc := ht c (by simp)
      rw [List.cons_append, scanWithin_cons hc.1 hc.2, ih (fun x hx => ht x (by simp [hx])), List.modifyHead_modifyHead]
      rfl

/-! ## The spelled tokens are found -/

/-- Inside a word, the rest of its first token is found, and then the tokens that follow it. -/
theorem Spelled.scanWithin {ts : List Token} {cs : List Char} (h : Spelled ts cs) (hne : ∀ x ∈ ts, x.chars ≠ [])
    {t : List Char} (ht : Plain t) : Token.scanWithin (t ++ cs) = ⟨t, false⟩ :: ts := by
  induction h generalizing t with
  | nil =>
      rw [scanWithin_append ht, scanWithin_nil]
      simp [prepend]
  | @space g u ts cs hg hgb hu _ ih =>
      have ih := ih (fun x hx => hne x (by simp [hx])) hu
      have hu0 : u ≠ [] := hne ⟨u, false⟩ (by simp)
      obtain ⟨b, g, rfl⟩ := List.exists_cons_of_ne_nil hg
      obtain ⟨c, u, rfl⟩ := List.exists_cons_of_ne_nil hu0
      have hscan : scan (g ++ (c :: u ++ cs)) = ⟨c :: u, false⟩ :: ts := by
        rw [scan_blanks (fun x hx => hgb x (by simp [hx])), List.cons_append, scan_solid (hu c (by simp)).1,
          ← List.cons_append, ih]
      rw [scanWithin_append ht, List.append_assoc, List.cons_append, scanWithin_blank (hgb b (by simp)), hscan]
      simp [prepend]
  | @comma u ts cs hu _ ih =>
      have ih := ih (fun x hx => hne x (by simp [hx])) hu
      rw [scanWithin_append ht, List.cons_append, scanWithin_comma, ih]
      simp [prepend, joined]

/-- Scanning finds the tokens that a text spells, if none is empty and the first stands behind blanks. -/
theorem Spelled.scan {ts : List Token} {cs : List Char} (h : Spelled ts cs) (hne : ∀ x ∈ ts, x.chars ≠ [])
    (hfirst : ∀ t ∈ ts.head?, t.comma = false) : Token.scan cs = ts := by
  cases h with
  | nil => rfl
  | @space g t ts cs _ hg ht h =>
      have hw := h.scanWithin (fun x hx => hne x (by simp [hx])) ht
      obtain ⟨c, t, rfl⟩ := List.exists_cons_of_ne_nil (hne ⟨t, false⟩ (by simp))
      rw [List.append_assoc, scan_blanks hg, List.cons_append, scan_solid (ht c (by simp)).1, ← List.cons_append, hw]
  | comma _ _ => exact absurd (hfirst _ rfl) (by simp)

/-! ## The found tokens are spelled -/

/-- What scanning finds in a text that does not end with a blank: inside a word, the rest of the word's first token
and then spelled tokens; behind blanks, spelled tokens. -/
theorem spelled_scan_aux {cs : List Char} (hlast : ∀ c ∈ cs.getLast?, isBlank c = false) :
    (∃ t ts tail, scanWithin cs = ⟨t, false⟩ :: ts ∧ cs = t ++ tail ∧ Plain t ∧ Spelled ts tail) ∧
      (cs ≠ [] → ∀ g, g ≠ [] → Blanks g → Spelled (scan cs) (g ++ cs)) := by
  induction cs with
  | nil => exact ⟨⟨[], [], [], rfl, rfl, by simp [Plain], .nil⟩, fun h => absurd rfl h⟩
  | cons c cs ih =>
      have hlast' : ∀ x ∈ cs.getLast?, isBlank x = false := by
        intro x hx
        refine hlast x ?_
        cases cs with
        | nil => simp at hx
        | cons d cs => rw [List.getLast?_cons_cons]; exact hx
      obtain ⟨⟨t, ts, tail, hw, hcs, ht, hs⟩, hsp⟩ := ih hlast'
      cases hc : isBlank c with
      | true =>
          -- A blank is not the last character, so a token follows it.
          have hne : cs ≠ [] := by
            rintro rfl
            rw [hlast c (by simp)] at hc
            cases hc
          refine ⟨⟨[], scan cs, c :: cs, scanWithin_blank hc cs, rfl, by simp [Plain],
            hsp hne [c] (by simp) (by simpa [Blanks] using hc)⟩, fun _ g hg hgb => ?_⟩
          have := hsp hne (g ++ [c]) (by simp) (by
            intro x hx
            rcases List.mem_append.mp hx with hx | hx
            · exact hgb x hx
            · simp at hx; rw [hx]; exact hc)
          rw [scan_blank hc]
          simpa using this
      | false =>
          have hfound : ∃ t ts tail, scanWithin (c :: cs) = ⟨t, false⟩ :: ts ∧ c :: cs = t ++ tail ∧ Plain t ∧
              Spelled ts tail := by
            by_cases hcomma : c = ','
            · subst hcomma
              refine ⟨[], ⟨t, true⟩ :: ts, ',' :: cs, ?_, rfl, by simp [Plain], ?_⟩
              · simp [scanWithin_comma, hw, joined]
              · rw [hcs]; exact .comma ht hs
            · refine ⟨c :: t, ts, tail, ?_, by rw [hcs]; rfl, ?_, hs⟩
              · simp [scanWithin_cons hc hcomma, hw, prepend]
              · intro x hx
                rcases List.mem_cons.mp hx with rfl | hx
                · exact ⟨hc, hcomma⟩
                · exact ht x hx
          refine ⟨hfound, fun _ g hg hgb => ?_⟩
          obtain ⟨t, ts, tail, hw, hcs, ht, hs⟩ := hfound
          rw [scan_solid hc, hw, hcs, ← List.append_assoc]
          exact .space hg hgb ht hs

/-- A text that starts with a blank and does not end with one spells the tokens that scanning finds. -/
theorem spelled_scan {cs : List Char} (hb : Breaks cs) (hlast : ∀ c ∈ cs.getLast?, isBlank c = false) :
    Spelled (scan cs) cs := by
  obtain ⟨⟨t, ts, tail, hw, hcs, ht, hs⟩, _⟩ := spelled_scan_aux hlast
  cases cs with
  | nil => exact .nil
  | cons c cs =>
      have hc := hb c (by simp)
      rw [scanWithin_blank hc] at hw
      cases t with
      | nil =>
          simp only [List.cons.injEq, true_and, List.nil_append] at hw hcs
          rw [← hcs, ← hw] at hs
          rw [scan_blank hc]
          exact hs
      | cons x t => simp at hw

/-! ## Groups between blanks -/

/-- The pieces that the commas of a group set apart, in the group again. -/
def commaJoined (first : List Char) (others : List (List Char)) : List Char := first ++ others.flatMap (',' :: ·)

/-- The text has the tokens: blanks part it into groups, and commas part each group into its tokens, of which all but
the first are joined to the one before. -/
inductive Grouped : List Token → List Char → Prop
  | nil {g} : Blanks g → Grouped [] g
  | group (t us) {g ts cs} : g ≠ [] → Blanks g → (∀ u ∈ t :: us, Plain u) → commaJoined t us ≠ [] → Grouped ts cs →
      Grouped (⟨t, false⟩ :: us.map (⟨·, true⟩) ++ ts) (g ++ (commaJoined t us ++ cs))

theorem solid_commaJoined {t : List Char} {us : List (List Char)} (h : ∀ u ∈ t :: us, Plain u) :
    Solid (commaJoined t us) := by
  intro c hc
  simp only [commaJoined, List.mem_append, List.mem_flatMap, List.mem_cons] at hc
  rcases hc with hc | ⟨u, hu, rfl | hc⟩
  · exact (h t (by simp) c hc).1
  · decide
  · exact (h u (by simp [hu]) c hc).1

theorem ofWord_commaJoined {t : List Char} {us : List (List Char)} (h : ∀ u ∈ t :: us, Plain u) :
    ofWord (commaJoined t us) = ⟨t, false⟩ :: us.map (⟨·, true⟩) := by
  have hsplit : (commaJoined t us).splitOnP (· == ',') = t :: us := by
    induction us generalizing t with
    | nil =>
        rw [commaJoined, List.flatMap_nil, List.append_nil]
        exact List.splitOnP_eq_singleton fun c hc => by simpa using (h t (by simp) c hc).2
    | cons u us ih =>
        have ht : ∀ c ∈ t, (c == ',') = false := fun c hc => by simpa using (h t (by simp) c hc).2
        rw [commaJoined, List.flatMap_cons, List.cons_append, List.splitOnP_append_cons_of_forall_mem ht ',' rfl,
          ← commaJoined, ih fun v hv => h v (by simp [hv])]
  rw [ofWord, hsplit]

theorem Grouped.breaks {ts : List Token} {cs : List Char} (h : Grouped ts cs) : Breaks cs := by
  cases h with
  | nil hg => exact fun c hc => hg c (List.mem_of_head? hc)
  | @group t us g ts cs hne hg _ _ _ =>
      obtain ⟨b, g, rfl⟩ := List.exists_cons_of_ne_nil hne
      simpa [Breaks] using hg b (by simp)

theorem Grouped.scan_eq {ts : List Token} {cs : List Char} (h : Grouped ts cs) : scan cs = ts := by
  induction h with
  | @nil g hg =>
      have hnil := scan_blanks hg []
      rwa [List.append_nil] at hnil
  | @group t us g ts cs _ hg hp hne h ih =>
      rw [scan_blanks hg, scan, words_solid hne (solid_commaJoined hp) h.breaks, List.flatMap_cons, ← scan, ih,
        ofWord_commaJoined hp]

theorem Grouped.blank {b : Char} {ts : List Token} {cs : List Char} (hb : isBlank b = true) (h : Grouped ts cs) :
    Grouped ts (b :: cs) := by
  cases h with
  | nil hg => exact .nil (List.forall_mem_cons.mpr ⟨hb, hg⟩)
  | @group t us g ts cs _ hg hp hne h =>
      have hbg : Blanks (b :: g) := List.forall_mem_cons.mpr ⟨hb, hg⟩
      exact .group t us (by simp) hbg hp hne h

/-- A text that goes on inside a group has the rest of the group and the tokens after it. -/
theorem exists_grouped_within (cs : List Char) :
    ∃ t us ts rest, (∀ u ∈ t :: us, Plain u) ∧ cs = commaJoined t us ++ rest ∧ Grouped ts rest := by
  have hnil : Plain [] := by simp [Plain]
  induction cs with
  | nil => exact ⟨[], [], [], [], by simp [hnil], rfl, .nil (by simp [Blanks])⟩
  | cons c cs ih =>
      obtain ⟨t, us, ts, rest, hp, rfl, h⟩ := ih
      cases hc : isBlank c with
      | true =>
          have hgroup : ∃ ts, Grouped ts (c :: (commaJoined t us ++ rest)) := by
            by_cases hne : commaJoined t us = []
            · exact ⟨ts, by rw [hne]; exact h.blank hc⟩
            · exact ⟨_, .group t us (g := [c]) (by simp) (by simpa [Blanks] using hc) hp hne h⟩
          obtain ⟨ts, hts⟩ := hgroup
          exact ⟨[], [], ts, _, by simp [hnil], rfl, hts⟩
      | false =>
          by_cases hcomma : c = ','
          · exact ⟨[], t :: us, ts, rest, List.forall_mem_cons.mpr ⟨hnil, hp⟩, by simp [commaJoined, hcomma], h⟩
          · obtain ⟨ht, hus⟩ := List.forall_mem_cons.mp hp
            have hct : Plain (c :: t) := List.forall_mem_cons.mpr ⟨⟨hc, hcomma⟩, ht⟩
            exact ⟨c :: t, us, ts, rest, List.forall_mem_cons.mpr ⟨hct, hus⟩, rfl, h⟩

theorem exists_grouped {cs : List Char} (hb : Breaks cs) : ∃ ts, Grouped ts cs := by
  obtain ⟨t, us, ts, rest, hp, rfl, h⟩ := exists_grouped_within cs
  cases hw : commaJoined t us with
  | nil => exact ⟨ts, h⟩
  | cons c w =>
      have hc := solid_commaJoined hp c (by simp [hw])
      rw [hb c (by simp [hw])] at hc
      cases hc

end Token

end HexAsm
