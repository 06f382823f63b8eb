import HexAsm.Text.Blank

/-!
# Blanks and words

How words and trimmed texts arise from their parts: blanks between words are skipped, a word ends at the first blank
after it, and trimming removes exactly the blanks at both ends.
-/

namespace HexAsm.Text

/-! ## Characters that are not blank -/

theorem isBlank_of_isAlphanum {c : Char} (h : c.isAlphanum = true) : isBlank c = false := by
  have hc : 0x30 ≤ c.toNat ∧ c.toNat ≤ 0x7A := by
    have hval : c.toNat = c.val.toNat := rfl
    delta Char.isAlphanum Char.isAlpha Char.isUpper Char.isLower Char.isDigit at h
    simp [UInt32.le_iff_toNat_le] at h
    omega
  simp only [isBlank, inRanges, blankRanges, List.any_cons, List.any_nil, Bool.or_false, Bool.or_eq_false_iff,
    Bool.and_eq_false_iff, decide_eq_false_iff_not]
  omega

theorem ne_of_isAlphanum {c d : Char} (h : c.isAlphanum = true) (hd : d.isAlphanum = false) : c ≠ d := by
  rintro rfl
  rw [h] at hd
  cases hd

/-- Every character of the text is blank. -/
def Blanks (cs : List Char) : Prop := ∀ c ∈ cs, isBlank c = true

instance : DecidablePred Blanks := fun cs => List.decidableBAll (isBlank · = true) cs

/-- No character of the text is blank. -/
def Solid (cs : List Char) : Prop := ∀ c ∈ cs, isBlank c = false

/-- The text is empty or starts with a blank, so that a word before it ends there. -/
def Breaks (cs : List Char) : Prop := ∀ c ∈ cs.head?, isBlank c = true

/-- The text neither starts nor ends with a blank. -/
def Trimmed (cs : List Char) : Prop :=
  (∀ c ∈ cs.head?, isBlank c = false) ∧ ∀ c ∈ cs.getLast?, isBlank c = false

theorem Solid.takeWhile {w rest : List Char} (hw : Solid w) (hr : Breaks rest) :
    (w ++ rest).takeWhile (!isBlank ·) = w := by
  rw [List.takeWhile_append_of_pos (fun c hc => by simp [hw c hc])]
  cases rest with
  | nil => simp
  | cons b rest => simp [hr b (by simp)]

theorem solid_takeWhile (cs : List Char) : Solid (cs.takeWhile (!isBlank ·)) := by
  intro c hc
  have := List.all_eq_true.mp (List.all_takeWhile (p := (!isBlank ·)) (l := cs)) c hc
  simpa using this

theorem breaks_dropWhile (cs : List Char) : Breaks (cs.dropWhile (!isBlank ·)) := by
  intro c hc
  have := List.head?_dropWhile_not (!isBlank ·) cs
  rw [Option.mem_def.mp hc] at this
  simpa using this

theorem drop_takeWhile (cs : List Char) : cs.drop (cs.takeWhile (!isBlank ·)).length = cs.dropWhile (!isBlank ·) := by
  have hleft : (cs.takeWhile (!isBlank ·) ++ cs.dropWhile (!isBlank ·)).drop (cs.takeWhile (!isBlank ·)).length =
      cs.dropWhile (!isBlank ·) := List.drop_left
  rwa [List.takeWhile_append_dropWhile] at hleft

theorem last_append {u v : List Char} (hu : ∀ c ∈ u.getLast?, isBlank c = false)
    (hv : ∀ c ∈ v.getLast?, isBlank c = false) : ∀ c ∈ (u ++ v).getLast?, isBlank c = false := by
  intro c hc
  rw [List.getLast?_append] at hc
  cases hl : v.getLast? with
  | none => exact hu c (by simpa [hl] using hc)
  | some d => exact hv c (by simpa [hl] using hc)

theorem Solid.last_append {w : List Char} (hw : Solid w) (hne : w ≠ []) (u : List Char) :
    ∀ c ∈ (u ++ w).getLast?, isBlank c = false := by
  intro c hc
  obtain ⟨d, hd⟩ := List.getLast?_isSome.mpr hne |> Option.isSome_iff_exists.mp
  rw [List.getLast?_append, hd] at hc
  cases hc
  exact hw _ (List.mem_of_getLast? hd)

/-! ## Words -/

theorem words_blank {b : Char} (hb : isBlank b = true) (cs : List Char) : words (b :: cs) = words cs := by
  simp [words, List.splitOnP_cons_eq_if_modifyHead, hb]

theorem words_blanks {g : List Char} (hg : Blanks g) (cs : List Char) : words (g ++ cs) = words cs := by
  induction g with
  | nil => rfl
  | cons b g ih =>
      rw [List.cons_append, words_blank (hg b (by simp)), ih (fun c hc => hg c (by simp [hc]))]

theorem words_solid {w rest : List Char} (hne : w ≠ []) (hw : Solid w) (hr : Breaks rest) :
    words (w ++ rest) = w :: words rest := by
  cases rest with
  | nil => simp [words, List.splitOnP_eq_singleton hw, hne]
  | cons b rest =>
      have hb := hr b (by simp)
      simp [words, List.splitOnP_append_cons_of_forall_mem hw b hb, List.splitOnP_cons_eq_if_modifyHead, hb, hne]

theorem words_append_blank {b : Char} (hb : isBlank b = true) (cs ds : List Char) :
    words (cs ++ b :: ds) = words cs ++ words ds := by
  rw [words, List.splitOnP_append_cons cs ds hb, List.filter_append]
  rfl

theorem words_append_blanks {g : List Char} (hg : Blanks g) (cs : List Char) : words (cs ++ g) = words cs := by
  cases g with
  | nil => rw [List.append_nil]
  | cons b g =>
      have hnil : words g = [] := by simpa [words] using words_blanks (fun c hc => hg c (by simp [hc])) []
      rw [words_append_blank (hg b (by simp)), hnil, List.append_nil]

/-! ## Trimming -/

theorem trimStart_blanks {g : List Char} (hg : Blanks g) (cs : List Char) : trimStart (g ++ cs) = trimStart cs :=
  List.dropWhile_append_of_pos hg

theorem trimStart_of_head {cs : List Char} (h : ∀ c ∈ cs.head?, isBlank c = false) : trimStart cs = cs := by
  cases cs with
  | nil => rfl
  | cons c cs => simp [trimStart, h c (by simp)]

theorem trimEnd_blanks {g : List Char} (hg : Blanks g) (cs : List Char) : trimEnd (cs ++ g) = trimEnd cs := by
  simp only [trimEnd, List.reverse_append]
  rw [List.dropWhile_append_of_pos (fun c hc => hg c (by simpa using hc))]

theorem trimEnd_of_getLast {cs : List Char} (h : ∀ c ∈ cs.getLast?, isBlank c = false) : trimEnd cs = cs := by
  have hr : trimStart cs.reverse = cs.reverse := trimStart_of_head (by simpa using h)
  rw [trimStart] at hr
  rw [trimEnd, hr, List.reverse_reverse]

theorem trim_eq {before body after : List Char} (hb : Blanks before) (ha : Blanks after) (h : Trimmed body) :
    trim (before ++ body ++ after) = body := by
  rw [trim, List.append_assoc, trimStart_blanks hb]
  cases body with
  | nil =>
      have : trimStart after = [] := by
        simpa [trimStart] using trimStart_blanks ha []
      simp [this, trimEnd]
  | cons c body =>
      rw [trimStart_of_head (by simpa using h.1), trimEnd_blanks ha, trimEnd_of_getLast h.2]

theorem exists_trimStart (cs : List Char) :
    ∃ g, Blanks g ∧ cs = g ++ trimStart cs ∧ ∀ c ∈ (trimStart cs).head?, isBlank c = false := by
  refine ⟨cs.takeWhile isBlank, fun c hc => List.all_eq_true.mp List.all_takeWhile c hc,
    List.takeWhile_append_dropWhile.symm, fun c hc => ?_⟩
  have := List.head?_dropWhile_not isBlank cs
  rw [← trimStart, Option.mem_def.mp hc] at this
  simpa using this

theorem exists_trimEnd (cs : List Char) :
    ∃ g, Blanks g ∧ cs = trimEnd cs ++ g ∧ ∀ c ∈ (trimEnd cs).getLast?, isBlank c = false := by
  obtain ⟨g, hg, hcs, hc⟩ := exists_trimStart cs.reverse
  refine ⟨g.reverse, fun c hc => hg c (by simpa using hc), ?_, by simpa [trimEnd, trimStart] using hc⟩
  rw [trimEnd, ← trimStart, ← List.reverse_append, ← hcs, List.reverse_reverse]

/-- A text is its trimmed part between blanks. -/
theorem exists_trim (cs : List Char) :
    ∃ before after, Blanks before ∧ Blanks after ∧ cs = before ++ trim cs ++ after ∧ Trimmed (trim cs) := by
  obtain ⟨before, hb, hcs, hhead⟩ := exists_trimStart cs
  obtain ⟨after, ha, hts, hlast⟩ := exists_trimEnd (trimStart cs)
  refine ⟨before, after, hb, ha, ?_, ?_, hlast⟩
  · rw [trim, List.append_assoc, ← hts, ← hcs]
  · intro c hc
    refine hhead c ?_
    rw [hts]
    -- The trimmed text is a first part of the text after the leading blanks.
    have hc' : (trimEnd (trimStart cs)).head? = some c := hc
    rw [List.head?_append, hc']
    rfl

theorem trim_append_blanks {g : List Char} (hg : Blanks g) (cs : List Char) : trim (cs ++ g) = trim cs := by
  obtain ⟨before, after, hb, ha, hcs, ht⟩ := exists_trim cs
  have hag : Blanks (after ++ g) := List.forall_mem_append.mpr ⟨ha, hg⟩
  have h := trim_eq hb hag ht
  rwa [← List.append_assoc, ← hcs] at h

theorem words_trim (cs : List Char) : words (trim cs) = words cs := by
  obtain ⟨before, after, hb, ha, hcs, -⟩ := exists_trim cs
  have h := words_append_blanks ha (before ++ trim cs)
  rw [← hcs, words_blanks hb] at h
  exact h.symm

end HexAsm.Text
