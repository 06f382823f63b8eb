import HexAsm.Proofs.Lemmas.Silent

/-!
# Lexemes

A line is cut at its first comment marker, and what stands before the marker is split into lexemes. The text that
spells lexemes is split into them again. A marker lies within one lexeme, so that spacing can neither make nor hide one.
-/

namespace HexAsm.Line

open HexAsm.Text

/-! ## The first marker -/

/-- The line is cut where its first comment marker starts, or at its end if it has none. -/
structure Cut (cs before rest : List Char) : Prop where
  eq : cs = before ++ rest
  marker : rest = [] ∨ ∃ m ∈ markers, m <+: rest
  first : ∀ u v, before = u ++ v → v ≠ [] → ¬ ∃ m ∈ markers, m <+: v ++ rest

/-- No comment marker occurs in the text. -/
def Unmarked (cs : List Char) : Prop := ∀ m ∈ markers, ¬ m <:+: cs

theorem exists_cut (cs : List Char) : ∃ rest, Cut cs (code cs) rest := by
  induction cs with
  | nil => exact ⟨[], rfl, .inl rfl, fun u v h hv => absurd (List.append_eq_nil_iff.mp h.symm).2 hv⟩
  | cons c cs ih =>
      obtain ⟨rest, hcut⟩ := ih
      rw [code]
      split
      · rename_i hmark
        exact ⟨c :: cs, rfl, .inr (atMarker_iff.mp hmark),
          fun u v h hv => absurd (List.append_eq_nil_iff.mp h.symm).2 hv⟩
      · rename_i hmark
        refine ⟨rest, congrArg (c :: ·) hcut.eq, hcut.marker, fun u v h hv => ?_⟩
        cases u with
        | nil =>
            rw [← atMarker_iff, ← h.trans (List.nil_append v), List.cons_append, ← hcut.eq]
            exact hmark
        | cons d u => exact hcut.first u v (List.cons.inj h).2 hv

theorem Cut.code_eq {cs before rest : List Char} (h : Cut cs before rest) : code cs = before := by
  induction before generalizing cs with
  | nil =>
      rw [h.eq, List.nil_append]
      rcases h.marker with rfl | hm
      · rfl
      · cases rest with
        | nil => rfl
        | cons c rest => rw [code, if_pos (atMarker_iff.mpr hm)]
  | cons c before ih =>
      have hmark := h.first [] (c :: before) rfl (by simp)
      rw [← atMarker_iff] at hmark
      have hcut : Cut (before ++ rest) before rest :=
        ⟨rfl, h.marker, fun u v hu hv => h.first (c :: u) v (congrArg (c :: ·) hu) hv⟩
      rw [h.eq, List.cons_append, code, ← List.cons_append, if_neg hmark, ih hcut]

theorem unmarked_code (cs : List Char) : Unmarked (code cs) := by
  rintro m hm ⟨u, v, h⟩
  have hsuffix : m ++ v <:+ code cs := ⟨u, by rw [← List.append_assoc, h]⟩
  have hmark := atMarker_iff.mpr ⟨m, hm, v, rfl⟩
  rw [atMarker_of_suffix_code hsuffix] at hmark
  cases hmark

theorem Unmarked.code_eq {cs : List Char} (h : Unmarked cs) : code cs = cs := by
  obtain ⟨rest, hcut⟩ := exists_cut cs
  rcases hcut.marker with rfl | ⟨m, hm, hp⟩
  · exact ((List.append_nil _).symm.trans hcut.eq.symm)
  · refine absurd (hp.isInfix.trans ?_) (h m hm)
    exact ⟨code cs, [], by rw [List.append_nil, ← hcut.eq]⟩

/-! ## Lexemes and the text they come from -/

/-- The text is a comma or a word without one. -/
def Lexeme (t : List Char) : Prop := t = [','] ∨ t ≠ [] ∧ Token.Plain t

theorem Lexed.lexeme {cs : List Char} {ts : List (List Char)} (h : Lexed cs ts) : ∀ t ∈ ts, Lexeme t := by
  induction h with
  | nil => simp
  | blank _ _ ih => exact ih
  | comma _ ih => exact List.forall_mem_cons.mpr ⟨.inl rfl, ih⟩
  | word hne hw _ _ ih => exact List.forall_mem_cons.mpr ⟨.inr ⟨hne, hw⟩, ih⟩

theorem Lexed.isInfix_of_mem {cs : List Char} {ts : List (List Char)} (h : Lexed cs ts) : ∀ t ∈ ts, t <:+: cs := by
  induction h with
  | nil => simp
  | blank _ _ ih => exact fun t ht => (ih t ht).trans (List.suffix_cons ..).isInfix
  | comma _ ih =>
      refine List.forall_mem_cons.mpr ⟨⟨[], _, rfl⟩, fun t ht => ?_⟩
      exact (ih t ht).trans (List.suffix_cons ..).isInfix
  | word _ _ _ _ ih =>
      refine List.forall_mem_cons.mpr ⟨(List.prefix_append ..).isInfix, fun t ht => ?_⟩
      exact (ih t ht).trans (List.suffix_append ..).isInfix

theorem isInfix_of_cons {m cs : List Char} {c : Char} (hm : Token.Plain m) (hne : m ≠ [])
    (hc : isBlank c = true ∨ c = ',') (h : m <:+: c :: cs) : m <:+: cs := by
  rcases List.infix_cons_iff.mp h with hp | h
  · obtain ⟨d, m, rfl⟩ := List.exists_cons_of_ne_nil hne
    obtain ⟨rfl, -⟩ := List.cons_prefix_cons.mp hp
    have hd := hm d (by simp)
    rcases hc with hc | hc
    · rw [hd.1] at hc
      cases hc
    · exact absurd hc hd.2
  · exact h

theorem isInfix_of_append {m w cs : List Char} (hm : Token.Plain m) (hr : Ends cs) (h : m <:+: w ++ cs) :
    m <:+: w ∨ m <:+: cs := by
  obtain ⟨u, v, h⟩ := h
  rw [List.append_assoc] at h
  rcases List.append_eq_append_iff.mp h with ⟨w', rfl, hv⟩ | ⟨w', rfl, rfl⟩
  · rcases List.append_eq_append_iff.mp hv with ⟨d, rfl, rfl⟩ | ⟨d, rfl, rfl⟩
    · exact .inl ⟨u, d, by simp⟩
    · -- the text would go on past the end of the word
      cases d with
      | nil => exact .inl ⟨u, [], by simp⟩
      | cons c d =>
          have hc := hm c (by simp)
          rcases hr c (by simp) with hb | hcomma
          · rw [hc.1] at hb
            cases hb
          · exact absurd hcomma hc.2
  · exact .inr ⟨w', v, by simp⟩

/-- What holds neither a blank nor a comma lies within one lexeme. -/
theorem Lexed.exists_of_isInfix {cs m : List Char} {ts : List (List Char)} (h : Lexed cs ts) (hm : Token.Plain m)
    (hne : m ≠ []) (hcs : m <:+: cs) : ∃ t ∈ ts, m <:+: t := by
  induction h with
  | nil => exact absurd (List.infix_nil.mp hcs) hne
  | blank hb _ ih => exact ih (isInfix_of_cons hm hne (.inl hb) hcs)
  | comma _ ih =>
      obtain ⟨t, ht, hmt⟩ := ih (isInfix_of_cons hm hne (.inr rfl) hcs)
      exact ⟨t, List.mem_cons_of_mem _ ht, hmt⟩
  | word _ _ hr _ ih =>
      rcases isInfix_of_append hm hr hcs with hw | hcs
      · exact ⟨_, List.mem_cons_self .., hw⟩
      · obtain ⟨t, ht, hmt⟩ := ih hcs
        exact ⟨t, List.mem_cons_of_mem _ ht, hmt⟩

/-- Texts with the same lexemes have the same markers, however they are spaced. -/
theorem Lexed.unmarked {cs ds : List Char} {ts : List (List Char)} (h : Lexed cs ts) (h' : Lexed ds ts)
    (hcs : Unmarked cs) : Unmarked ds := by
  intro m hm hmd
  have hplain : ∀ m ∈ markers, m ≠ [] ∧ Token.Plain m := by
    simp [markers, Token.Plain]
    decide
  obtain ⟨hne, hp⟩ := hplain m hm
  obtain ⟨t, ht, hmt⟩ := h'.exists_of_isInfix hp hne hmd
  exact hcs m hm (hmt.trans (h.isInfix_of_mem t ht))

/-! ## The lexemes of a spelled text -/

theorem Lexeme.lexed_append {t cs : List Char} {ts : List (List Char)} (ht : Lexeme t) (hts : Lexed cs ts)
    (hends : t ≠ [','] → Ends cs) : Lexed (t ++ cs) (t :: ts) := by
  rcases ht with rfl | ⟨hne, hw⟩
  · exact .comma hts
  · exact .word hne hw (hends hw.ne_comma) hts

theorem lexed_spellAfter {ts : List (List Char)} (h : ∀ t ∈ ts, Lexeme t) (previous : List Char) :
    Lexed (spellAfter previous ts) ts ∧ (previous ≠ [','] → Ends (spellAfter previous ts)) := by
  have hsp : isBlank ' ' = true := by decide
  induction ts generalizing previous with
  | nil => exact ⟨.nil, fun _ => by simp [spellAfter, Ends]⟩
  | cons t ts ih =>
      obtain ⟨hts, hends⟩ := ih (fun x hx => h x (by simp [hx])) t
      have ht := (h t (by simp)).lexed_append hts hends
      rw [spellAfter]
      split
      · rename_i hc
        refine ⟨ht, fun hp => ?_⟩
        rw [hc.resolve_right hp]
        simp [Ends]
      · exact ⟨.blank hsp ht, fun _ => by simp [Ends, hsp]⟩

/-- Lexemes are spelled from the first on as they are later in the line, but for a comma behind the first word. -/
theorem spell_cons (t : List Char) (ts : List (List Char)) :
    spell (t :: ts) = t ++ spellAfter t ts ∨
      t ≠ [','] ∧ ∃ us, ts = [','] :: us ∧ spell (t :: ts) = t ++ ' ' :: ([','] ++ spellAfter [','] us) := by
  cases ts with
  | nil => exact .inl (List.append_nil t).symm
  | cons u us =>
      by_cases ht : t = [',']
      · exact .inl (by simp [spell, spellAfter, ht])
      · by_cases hu : u = [',']
        · exact .inr ⟨ht, us, by rw [hu], by simp [spell, ht, hu]⟩
        · exact .inl (by simp [spell, spellAfter, ht, hu])

/-- The text that spells lexemes has these lexemes. -/
theorem lexed_spell {ts : List (List Char)} (h : ∀ t ∈ ts, Lexeme t) : Lexed (spell ts) ts := by
  cases ts with
  | nil => exact .nil
  | cons t ts =>
      have hsp : isBlank ' ' = true := by decide
      have hts : ∀ x ∈ ts, Lexeme x := fun x hx => h x (by simp [hx])
      rcases spell_cons t ts with heq | ⟨hne, us, rfl, heq⟩
      · rw [heq]
        exact (h t (by simp)).lexed_append (lexed_spellAfter hts t).1 (lexed_spellAfter hts t).2
      · have hus : Lexed (spellAfter [','] us) us := (lexed_spellAfter (fun x hx => hts x (by simp [hx])) _).1
        rw [heq]
        exact (h t (by simp)).lexed_append (.blank hsp (.comma hus)) fun _ => by simp [Ends, hsp]

theorem lexed_tidy (cs : List Char) : Lexed (tidy cs) (lexemes (code cs)) :=
  lexed_spell (lexed_lexemes (code cs)).lexeme

theorem unmarked_tidy (cs : List Char) : Unmarked (tidy cs) :=
  (lexed_lexemes (code cs)).unmarked (lexed_tidy cs) (unmarked_code cs)

end HexAsm.Line
