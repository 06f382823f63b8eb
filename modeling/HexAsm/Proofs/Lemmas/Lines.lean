import HexAsm.Text.Lines

/-!
# Lines

A text that is written line by line is read as these lines. A carriage return directly before a line feed goes with it.
-/

namespace HexAsm.Text

theorem lines_cons {c : Char} {cs : List Char} (hn : c ≠ '\n') (hr : c = '\r' → cs.head? ≠ some '\n') :
    lines (c :: cs) = match lines cs with
      | [] => [[c]]
      | l :: ls => (c :: l) :: ls := by
  rw [lines.eq_def]
  split
  · simp_all
  · simp_all
  · simp_all
  · rename_i h
    cases h
    rfl

/-- A line feed ends a line, if no carriage return stands directly before it. -/
theorem lines_line {t : List Char} (hn : '\n' ∉ t) (hr : t.getLast? ≠ some '\r') (rest : List Char) :
    lines (t ++ '\n' :: rest) = t :: lines rest := by
  induction t with
  | nil => rw [List.nil_append, lines]
  | cons c t ih =>
      simp only [List.mem_cons, not_or] at hn
      have ih := ih hn.2 (fun h => hr (by simp [List.getLast?_cons, h]))
      rw [List.cons_append, lines_cons (Ne.symm hn.1), ih]
      -- The character before the line feed is the last of the line.
      rintro rfl hh
      cases t with
      | nil => simp at hr
      | cons d t =>
          simp at hh
          exact hn.2 (by simp [hh])

/-- The text can stand on a line of its own. -/
def OneLine (t : String) : Prop := ∀ c ∈ t.toList, c ≠ '\n' ∧ c ≠ '\r'

theorem lines_unlines {ts : List String} (h : ∀ t ∈ ts, OneLine t) :
    lines (unlines ts).toList = ts.map String.toList := by
  simp only [unlines, String.toList_ofList]
  induction ts with
  | nil => rfl
  | cons t ts ih =>
      have ht := h t (by simp)
      have hn : '\n' ∉ t.toList := fun hc => (ht _ hc).1 rfl
      have hr : t.toList.getLast? ≠ some '\r' := fun hc => (ht _ (List.mem_of_getLast? hc)).2 rfl
      rw [List.flatMap_cons, List.append_assoc, List.singleton_append, lines_line hn hr,
        ih (fun x hx => h x (by simp [hx])), List.map_cons]

/-- The text is empty or ends with a line feed. -/
def WholeLines (cs : List Char) : Prop := ∀ c ∈ cs.getLast?, c = '\n'

theorem WholeLines.tail {c : Char} {cs : List Char} (h : WholeLines (c :: cs)) : WholeLines cs := by
  cases cs with
  | nil => simp [WholeLines]
  | cons d cs => exact h

theorem WholeLines.append {cs ds : List Char} (h : WholeLines cs) (h' : WholeLines ds) :
    WholeLines (cs ++ ds) := by
  intro c hc
  rw [List.getLast?_append] at hc
  cases hd : ds.getLast? with
  | none => exact h c (by simpa [hd] using hc)
  | some d => exact h' c (by simpa [hd] using hc)

theorem lines_ne_nil (c : Char) (cs : List Char) : lines (c :: cs) ≠ [] := by
  rw [lines.eq_def]
  split
  · simp_all
  · simp
  · simp
  · split <;> simp

/-- Whole lines are read before the text that follows them. -/
theorem lines_append {cs : List Char} (h : WholeLines cs) (ds : List Char) :
    lines (cs ++ ds) = lines cs ++ lines ds := by
  fun_induction lines cs with
  | case1 => rfl
  | case2 cs ih => rw [List.cons_append, lines, ih h.tail, List.cons_append]
  | case3 cs ih => rw [List.cons_append, List.cons_append, lines, ih h.tail.tail, List.cons_append]
  | case4 c cs hn hr hcs ih =>
      -- No line is left only if nothing is, but then the text ends with `c`.
      cases cs with
      | nil => exact absurd (h c rfl) hn
      | cons d cs => exact absurd hcs (lines_ne_nil d cs)
  | case5 c cs hn hr l ls hcs ih =>
      have hhead : c = '\r' → (cs ++ ds).head? ≠ some '\n' := by
        intro hc hd
        cases cs with
        | nil => cases hcs
        | cons d cs => exact hr cs hc (by rw [Option.some.inj hd])
      rw [List.cons_append, lines_cons hn hhead, ih h.tail, hcs]
      rfl

/-- What ends a line: a line feed, with or without a carriage return before it. -/
inductive LineEnd : List Char → Prop
  | feed : LineEnd ['\n']
  | returnFeed : LineEnd ['\r', '\n']

/-- A carriage return and a line feed end a line, whatever it ends with. -/
theorem lines_returnFeed {t : List Char} (hn : '\n' ∉ t) (rest : List Char) :
    lines (t ++ '\r' :: '\n' :: rest) = t :: lines rest := by
  induction t with
  | nil => rw [List.nil_append, lines]
  | cons c t ih =>
      simp only [List.mem_cons, not_or] at hn
      rw [List.cons_append, lines_cons (Ne.symm hn.1), ih hn.2]
      intro _ hh
      cases t with
      | nil => simp at hh
      | cons d t =>
          simp at hh
          exact hn.2 (by simp [hh])

/-- A line is read up to its end, but for a carriage return that it has there and that goes with the line feed. -/
theorem exists_lines_line {t e : List Char} (hn : '\n' ∉ t) (he : LineEnd e) (rest : List Char) :
    ∃ line, lines (t ++ e ++ rest) = line :: lines rest ∧ (t = line ∨ t = line ++ ['\r']) := by
  cases he with
  | feed =>
      by_cases hr : t.getLast? = some '\r'
      · obtain ⟨u, rfl⟩ := List.getLast?_eq_some_iff.mp hr
        refine ⟨u, ?_, .inr rfl⟩
        have hu : '\n' ∉ u := fun h => hn (by simp [h])
        simpa using lines_returnFeed hu rest
      · exact ⟨t, by simpa using lines_line hn hr rest, .inl rfl⟩
  | returnFeed => exact ⟨t, by simpa using lines_returnFeed hn rest, .inl rfl⟩

theorem lines_last {t : List Char} (hn : '\n' ∉ t) (hne : t ≠ []) : lines t = [t] := by
  induction t with
  | nil => exact absurd rfl hne
  | cons c t ih =>
      simp only [List.mem_cons, not_or] at hn
      rw [lines_cons (Ne.symm hn.1) fun _ hh => hn.2 (List.mem_of_head? hh)]
      cases t with
      | nil => rfl
      | cons d t => rw [ih hn.2 (by simp)]

end HexAsm.Text
