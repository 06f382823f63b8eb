import HexAsm.Proofs.Lemmas.Statement
import HexAsm.Proofs.Lemmas.Tidy

/-!
# Silent lines

A line is silent if it is blank or starts with a comment. Cutting the comment off and tidying leave nothing of exactly
these lines, and exactly these are read as comments.
-/

namespace HexAsm

open HexAsm.Text

namespace Line

/-- The texts that start a comment. -/
def markers : List (List Char) := [[';'], ['/', '/'], ['#']]

/-- Nothing but blanks stands before the end of the line or before a comment marker. -/
def Silent (cs : List Char) : Prop :=
  ∃ before rest, cs = before ++ rest ∧ Blanks before ∧ (rest = [] ∨ ∃ m ∈ markers, m <+: rest)

/-! ## Markers -/

theorem atMarker_iff {cs : List Char} : atMarker cs = true ↔ ∃ m ∈ markers, m <+: cs := by
  constructor
  · intro h
    unfold atMarker at h
    split at h
    · exact ⟨[';'], by simp [markers], _, rfl⟩
    · exact ⟨['#'], by simp [markers], _, rfl⟩
    · exact ⟨['/', '/'], by simp [markers], _, rfl⟩
    · cases h
  · rintro ⟨m, hm, rest, rfl⟩
    simp only [markers, List.mem_cons, List.not_mem_nil, or_false] at hm
    rcases hm with rfl | rfl | rfl <;> rfl

theorem atMarker_mono {u v : List Char} (h : u <+: v) (hu : atMarker u = true) : atMarker v = true := by
  obtain ⟨m, hm, hp⟩ := atMarker_iff.mp hu
  exact atMarker_iff.mpr ⟨m, hm, hp.trans h⟩

theorem atMarker_append {w tail : List Char} (hne : w ≠ []) (ht : Breaks tail) :
    atMarker (w ++ tail) = atMarker w := by
  match w, tail with
  | [], _ => exact absurd rfl hne
  | _, [] => rw [List.append_nil]
  | [c], b :: tail =>
      -- Only here could a marker reach into the tail, which starts with a blank.
      have hb : b ≠ '/' := by
        rintro rfl
        exact absurd (ht '/' (by simp)) (by decide)
      simp only [atMarker, List.singleton_append]
      split <;> simp_all
  | c :: d :: w, b :: tail =>
      simp only [atMarker, List.cons_append]
      split <;> simp_all

theorem atMarker_of_isBlank {c : Char} (hc : isBlank c = true) (cs : List Char) : atMarker (c :: cs) = false := by
  refine atMarker_eq_false ⟨?_, ?_, ?_⟩ cs
  all_goals
    rintro rfl
    exact absurd hc (by decide)

/-! ## Silent lines, character by character -/

theorem silent_nil : Silent [] := ⟨[], [], rfl, by simp [Blanks], .inl rfl⟩

theorem silent_cons {c : Char} {cs : List Char} :
    Silent (c :: cs) ↔ atMarker (c :: cs) = true ∨ isBlank c = true ∧ Silent cs := by
  constructor
  · rintro ⟨before, rest, hcs, hb, hrest⟩
    cases before with
    | nil =>
        rw [List.nil_append] at hcs
        rw [hcs, atMarker_iff]
        rcases hrest with rfl | hm
        · cases hcs
        · exact .inl hm
    | cons b before =>
        cases hcs
        exact .inr ⟨hb c (by simp), before, rest, rfl, fun x hx => hb x (by simp [hx]), hrest⟩
  · rintro (h | ⟨hc, before, rest, rfl, hb, hrest⟩)
    · exact ⟨[], c :: cs, rfl, by simp [Blanks], .inr (atMarker_iff.mp h)⟩
    · exact ⟨c :: before, rest, rfl, List.forall_mem_cons.mpr ⟨hc, hb⟩, hrest⟩

theorem silent_cons_of_solid {c : Char} {cs : List Char} (hc : isBlank c = false) :
    Silent (c :: cs) ↔ atMarker (c :: cs) = true := by
  simp [silent_cons, hc]

theorem silent_of_blanks {g : List Char} (hg : Blanks g) : Silent g := ⟨g, [], by simp, hg, .inl rfl⟩

theorem silent_blanks {g : List Char} (hg : Blanks g) (cs : List Char) : Silent (g ++ cs) ↔ Silent cs := by
  induction g with
  | nil => rfl
  | cons b g ih =>
      have hb := hg b (by simp)
      rw [List.cons_append, silent_cons, atMarker_of_isBlank hb, ih (fun x hx => hg x (by simp [hx]))]
      simp [hb]

theorem silent_append_blanks {g : List Char} (hg : Blanks g) (cs : List Char) : Silent (cs ++ g) ↔ Silent cs := by
  have hbreaks : Breaks g := fun c hc => hg c (List.mem_of_head? hc)
  induction cs with
  | nil => exact ⟨fun _ => silent_nil, fun _ => silent_of_blanks hg⟩
  | cons c cs ih =>
      have hmark := atMarker_append (w := c :: cs) (by simp) hbreaks
      rw [List.cons_append] at hmark ⊢
      simp only [silent_cons, hmark, ih]

theorem silent_trim (cs : List Char) : Silent (trim cs) ↔ Silent cs := by
  obtain ⟨before, after, hb, ha, hcs, -⟩ := exists_trim cs
  nth_rewrite 2 [hcs]
  rw [silent_append_blanks ha, silent_blanks hb]

theorem silent_of_trimmed {cs : List Char} (h : Trimmed cs) : Silent cs ↔ cs = [] ∨ isComment cs = true := by
  rw [isComment, trimStart_of_head h.1]
  cases cs with
  | nil => simp [silent_nil]
  | cons c cs => simp [silent_cons_of_solid (h.1 c (by simp))]

instance : DecidablePred Silent := fun cs =>
  decidable_of_iff (trim cs = [] ∨ isComment (trim cs) = true) <| by
    obtain ⟨-, -, -, -, -, h⟩ := exists_trim cs
    rw [← silent_trim cs, silent_of_trimmed h]

/-! ## Tidying -/

theorem code_prefix (cs : List Char) : code cs <+: cs := by
  induction cs with
  | nil => exact List.prefix_rfl
  | cons c cs ih =>
      unfold code
      split
      · exact List.nil_prefix
      · exact List.cons_prefix_cons.mpr ⟨rfl, ih⟩

theorem atMarker_of_suffix_code {cs u : List Char} (h : u <:+ code cs) : atMarker u = false := by
  induction cs with
  | nil =>
      rw [List.suffix_nil.mp h]
      rfl
  | cons c cs ih =>
      unfold code at h
      split at h
      · rw [List.suffix_nil.mp h]
        rfl
      · rename_i hc
        rcases List.suffix_cons_iff.mp h with rfl | h
        · rw [Bool.eq_false_iff]
          exact fun hu => hc (atMarker_mono (List.cons_prefix_cons.mpr ⟨rfl, code_prefix cs⟩) hu)
        · exact ih h

theorem blanks_code {cs : List Char} : Blanks (code cs) ↔ Silent cs := by
  induction cs with
  | nil => exact ⟨fun _ => silent_nil, fun _ => by simp [code, Blanks]⟩
  | cons c cs ih =>
      rw [silent_cons, ← ih, code]
      cases atMarker (c :: cs) with
      | true => simp [Blanks]
      | false => simp [Blanks]

/-- A text that starts with no blank starts with its first lexeme. -/
theorem exists_lexeme {c : Char} (hc : isBlank c = false) (cs : List Char) :
    ∃ w rest, c :: cs = w ++ rest ∧ w ≠ [] ∧ (w = [','] ∨ Token.Plain w) ∧
      lexemes (c :: cs) = w :: lexemes rest := by
  obtain ⟨ts, h⟩ := exists_lexed (c :: cs)
  generalize hcs : c :: cs = text at h ⊢
  cases h with
  | nil => cases hcs
  | blank hb _ =>
      cases hcs
      rw [hc] at hb
      cases hb
  | @comma rest _ _ => exact ⟨[','], rest, rfl, by simp, .inl rfl, lexemes_comma rest⟩
  | @word w rest _ hne hw hr _ => exact ⟨w, rest, rfl, hne, .inr hw, lexemes_word hne hw hr⟩

theorem lexemes_of_blanks {g : List Char} (hg : Blanks g) (cs : List Char) : lexemes (g ++ cs) = lexemes cs := by
  induction g with
  | nil => rfl
  | cons b g ih => rw [List.cons_append, lexemes_blank (hg b (by simp)), ih (fun x hx => hg x (by simp [hx]))]

theorem exists_spell (t : List Char) (ts : List (List Char)) :
    ∃ tail, spell (t :: ts) = t ++ tail ∧ (t ≠ [','] → Breaks tail) := by
  cases ts with
  | nil => exact ⟨[], by simp [spell], by simp [Breaks]⟩
  | cons u us =>
      refine ⟨(if t = [','] then u else ' ' :: u) ++ spellAfter u us, by simp [spell], fun ht => ?_⟩
      simp [Breaks, ht]
      decide

/-- The tidy form of a line that is not silent starts with a word or a comma, and not with a marker. -/
theorem not_silent_tidy {cs : List Char} (h : ¬ Silent cs) : ¬ Silent (tidy cs) := by
  obtain ⟨g, hg, hcode, hhead⟩ := exists_trimStart (code cs)
  cases hstart : trimStart (code cs) with
  | nil =>
      rw [hstart, List.append_nil] at hcode
      exact absurd (blanks_code.mp (hcode ▸ hg)) h
  | cons c rest =>
      rw [hstart] at hcode hhead
      have hc := hhead c (by simp)
      obtain ⟨w, rest', hw, hne, hplain, hlex⟩ := exists_lexeme hc rest
      obtain ⟨tail, hspell, hbreaks⟩ := exists_spell w (lexemes rest')
      have htidy : tidy cs = w ++ tail := by rw [tidy, hcode, lexemes_of_blanks hg, hlex, hspell]
      obtain ⟨d, w', rfl⟩ := List.exists_cons_of_ne_nil hne
      obtain rfl : c = d := (List.cons.inj hw).1
      rw [htidy, List.cons_append, silent_cons_of_solid hc, Bool.not_eq_true, ← List.cons_append]
      rcases hplain with hcomma | hplain
      · rw [hcomma]
        rfl
      · rw [atMarker_append hne (hbreaks hplain.ne_comma), Bool.eq_false_iff]
        intro hmark
        have hsuffix : c :: rest <:+ code cs := ⟨g, hcode.symm⟩
        have hfull := atMarker_mono ⟨rest', hw.symm⟩ hmark
        rw [atMarker_of_suffix_code hsuffix] at hfull
        cases hfull

theorem tidy_eq_nil {cs : List Char} : tidy cs = [] ↔ Silent cs := by
  constructor
  · intro h
    by_contra hs
    exact not_silent_tidy hs (by rw [h]; exact silent_nil)
  · intro h
    have hlex : lexemes (code cs) = [] := by
      have := lexemes_of_blanks (blanks_code.mpr h) []
      rw [List.append_nil] at this
      exact this
    rw [tidy, hlex]
    rfl

theorem silent_tidy {cs : List Char} : Silent (tidy cs) ↔ Silent cs := by
  constructor
  · intro h
    by_contra hs
    exact not_silent_tidy hs h
  · intro h
    rw [tidy_eq_nil.mpr h]
    exact silent_nil

end Line

/-! ## Reading -/

namespace Instruction

theorem ofCode_ne_comment {cs : List Char} {i : Instruction} (ht : Trimmed cs) (h : ofCode cs = .ok i) :
    i.op ≠ .comment := by
  obtain ⟨l, head, rest, hsplit, hops⟩ := split_of_ofCode ht h
  have hm := (Layout.ofMnemonic?_eq_some.mp hsplit.mnemonic).1
  rw [((ofTokens_eq_ok hm).mp (ofOperands_eq_ok.mp hops).2).1]
  exact Operation.ne_comment (Layout.layout?_operation hm)

theorem ofLine_of_silent {s : String} (h : Line.Silent s.toList) : ofLine s = .ok comment := by
  obtain ⟨-, -, -, -, -, ht⟩ := exists_trim s.toList
  rw [ofLine, if_pos ((Line.silent_of_trimmed ht).mp ((Line.silent_trim _).mpr h))]

theorem silent_of_ofLine {s : String} {i : Instruction} (h : ofLine s = .ok i) (hi : i.op = .comment) :
    Line.Silent s.toList := by
  obtain ⟨-, -, -, -, -, ht⟩ := exists_trim s.toList
  rw [ofLine] at h
  split at h
  · rename_i hc
    exact (Line.silent_trim _).mp ((Line.silent_of_trimmed ht).mpr hc)
  · exact absurd hi (ofCode_ne_comment ht h)

theorem toWord_eq_ok_none {i : Instruction} (h : i.toWord = .ok none) : i.op = .comment := by
  unfold toWord at h
  cases hl : i.legal with
  | error f =>
      rw [hl] at h
      cases h
  | ok j =>
      obtain rfl := (legal_eq_ok.mp hl).2
      rw [hl] at h
      simpa [Except.map, Operation.layout?_eq_none] using h

end Instruction

theorem Word.ofLine_eq_ok_none {s : String} : Word.ofLine s = .ok none ↔ Line.Silent s.toList := by
  constructor
  · intro h
    obtain ⟨i, hi, hw⟩ := bind_eq_ok.mp h
    exact Instruction.silent_of_ofLine hi (Instruction.toWord_eq_ok_none hw)
  · intro h
    exact bind_eq_ok.mpr ⟨_, Instruction.ofLine_of_silent h, by decide⟩

end HexAsm
