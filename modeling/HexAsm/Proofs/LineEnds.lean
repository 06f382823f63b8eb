import HexAsm.Proofs.Lemmas.Pass
import HexAsm.Proofs.Lemmas.Silent

/-!
# Line ends

A line may end with a line feed alone or with a carriage return before it. Only one carriage return goes with the line
feed, so a line that already ends with some keeps one more of them if every line feed gets its own. That one is a blank
at the end of its line, and no report tells the difference.
-/

namespace HexAsm

open HexAsm.Text

/-! ## Lines -/

namespace Text

/-- The text with a carriage return put before each line feed. -/
def returnFeeds (cs : List Char) : List Char := cs.flatMap fun c => if c = '\n' then ['\r', '\n'] else [c]

theorem returnFeeds_feed (cs : List Char) : returnFeeds ('\n' :: cs) = '\r' :: '\n' :: returnFeeds cs := rfl

theorem returnFeeds_cons {c : Char} (hc : c ≠ '\n') (cs : List Char) :
    returnFeeds (c :: cs) = c :: returnFeeds cs := by
  simp [returnFeeds, hc]

theorem head_returnFeeds (cs : List Char) : (returnFeeds cs).head? ≠ some '\n' := by
  cases cs with
  | nil => simp [returnFeeds]
  | cons c cs =>
      by_cases hc : c = '\n'
      · rw [hc, returnFeeds_feed]
        simp
      · rw [returnFeeds_cons hc]
        simpa using hc

/-- The second line has at most one carriage return more, at its end. -/
def MayReturn (line line' : List Char) : Prop := line' = line ∨ line' = line ++ ['\r']

theorem MayReturn.cons {line line' : List Char} (h : MayReturn line line') (c : Char) :
    MayReturn (c :: line) (c :: line') := by
  rcases h with rfl | rfl
  · exact .inl rfl
  · exact .inr rfl

theorem lines_returnFeeds (cs : List Char) : List.Forall₂ MayReturn (lines cs) (lines (returnFeeds cs)) := by
  fun_induction lines cs with
  | case1 => exact .nil
  | case2 cs ih =>
      rw [returnFeeds_feed, lines]
      exact .cons (.inl rfl) ih
  | case3 cs ih =>
      -- of the two carriage returns now there, the first stays on the line
      have hlines : lines ('\r' :: '\r' :: '\n' :: returnFeeds cs) = ['\r'] :: lines (returnFeeds cs) :=
        lines_returnFeed (t := ['\r']) (by simp) _
      rw [returnFeeds_cons (by decide), returnFeeds_feed, hlines]
      exact .cons (.inr rfl) ih
  | case4 c cs hn _ hcs _ =>
      have hempty : cs = [] := by
        cases cs with
        | nil => rfl
        | cons d cs => exact absurd hcs (lines_ne_nil d cs)
      subst hempty
      rw [returnFeeds_cons hn, returnFeeds, List.flatMap_nil, lines_last (by simpa using Ne.symm hn) (by simp)]
      exact .cons (.inl rfl) .nil
  | case5 c cs hn _ l ls hcs ih =>
      rw [hcs] at ih
      rw [returnFeeds_cons hn, lines_cons hn fun _ => head_returnFeeds cs]
      generalize lines (returnFeeds cs) = ls' at ih ⊢
      cases ih with
      | cons hl hls => exact .cons (hl.cons c) hls

end Text

/-! ## Blanks at the end of a line -/

namespace Line

variable {b : Char}

theorem code_append_blank (hb : isBlank b = true) (cs : List Char) :
    code (cs ++ [b]) = code cs ∨ code (cs ++ [b]) = code cs ++ [b] := by
  induction cs with
  | nil =>
      right
      simp [code, atMarker_of_isBlank hb]
  | cons c cs ih =>
      have hbreaks : Breaks [b] := by simpa [Breaks] using hb
      have hmark : atMarker (c :: (cs ++ [b])) = atMarker (c :: cs) := atMarker_append (w := c :: cs) (by simp) hbreaks
      rw [List.cons_append, code, code, hmark]
      split
      · exact .inl rfl
      · rcases ih with h | h
        · exact .inl (congrArg (c :: ·) h)
        · exact .inr (congrArg (c :: ·) h)

theorem lexemes_append_blank (hb : isBlank b = true) (cs : List Char) : lexemes (cs ++ [b]) = lexemes cs := by
  have hcomma : b ≠ ',' := by
    intro h
    rw [h] at hb
    exact absurd hb (by decide)
  have hblanks : Blanks [b] := by simpa [Blanks] using hb
  rw [lexemes, List.flatMap_append, List.flatMap_singleton, if_neg hcomma]
  exact words_append_blanks hblanks _

theorem tidy_append_blank (hb : isBlank b = true) (cs : List Char) : tidy (cs ++ [b]) = tidy cs := by
  rcases code_append_blank hb cs with h | h
  · rw [tidy, h, tidy]
  · rw [tidy, h, lexemes_append_blank hb, tidy]

end Line

/-! ## Reports -/

namespace Text.MayReturn

variable {line line' : List Char}

theorem tidy_eq (h : MayReturn line line') : Line.tidy line' = Line.tidy line := by
  rcases h with rfl | rfl
  · rfl
  · exact Line.tidy_append_blank (by decide) line

theorem trim_eq (h : MayReturn line line') : trim line' = trim line := by
  rcases h with rfl | rfl
  · rfl
  · exact trim_append_blanks (by simp [Blanks]; decide) line

theorem entriesOfLine_eq (h : MayReturn line line') (n : Nat) :
    Image.entriesOfLine line' n = Image.entriesOfLine line n := by
  rcases h with rfl | rfl
  · rfl
  · exact Image.entriesOfLine_append_blank (by decide) line n

theorem alike (h : MayReturn line line') (n : Nat) :
    Step.Alike id ⟨⟨n, String.ofList line⟩, convertLine ⟨n, String.ofList line⟩⟩
      ⟨⟨n, String.ofList line'⟩, convertLine ⟨n, String.ofList line'⟩⟩ := by
  have hconvert : convertLine ⟨n, String.ofList line'⟩ = convertLine ⟨n, String.ofList line⟩ := by
    simp only [convertLine, String.toList_ofList, h.tidy_eq]
  rw [hconvert]
  generalize convertLine ⟨n, String.ofList line⟩ = result
  exact ⟨rfl, by simp only [Step.failure?, String.toList_ofList, h.trim_eq]⟩

end Text.MayReturn

theorem imageItems_returnFeeds (image : String) :
    imageItems (String.ofList (returnFeeds image.toList)) = imageItems image := by
  have hentries : Image.entries (String.ofList (returnFeeds image.toList)) = Image.entries image := by
    rw [Image.entries, Image.entries, String.toList_ofList]
    have hlines := forall₂_zipIdx (lines_returnFeeds image.toList) 1
    generalize (lines image.toList).zipIdx 1 = ls at hlines ⊢
    generalize (lines (returnFeeds image.toList)).zipIdx 1 = ls' at hlines ⊢
    induction hlines with
    | nil => rfl
    | @cons x x' _ _ hx _ ih =>
        obtain ⟨line, n⟩ := x
        obtain ⟨line', n'⟩ := x'
        obtain ⟨hline, rfl⟩ := hx
        simp only [List.flatMap_cons, ih, hline.entriesOfLine_eq n']
  rw [imageItems, imageItems, hentries]

/-- Putting a carriage return before each line feed of a source or an image changes nothing in the report on it. -/
theorem report_returnFeeds (settings : Settings) (text : String) :
    let returned := String.ofList (returnFeeds text.toList)
    (assemble settings returned).report = (assemble settings text).report ∧
      (disassemble settings returned).report = (disassemble settings text).report := by
  intro returned
  constructor
  · have hlines := forall₂_zipIdx (lines_returnFeeds text.toList) 1
    have hitems : List.Forall₂ (fun i i' => Step.Alike id ⟨i, convertLine i⟩ ⟨i', convertLine i'⟩) (sourceItems text)
        (sourceItems returned) := by
      rw [sourceItems, sourceItems, String.toList_ofList, List.forall₂_map_left_iff, List.forall₂_map_right_iff]
      refine hlines.imp fun x x' hx => ?_
      obtain ⟨line, n⟩ := x
      obtain ⟨line', n'⟩ := x'
      obtain ⟨hline, rfl⟩ := hx
      exact hline.alike n'
    obtain ⟨hcount, houtput, hfailures⟩ := Pass.report_run_congr hitems settings.keepGoing
    rw [List.map_id, List.map_id] at hfailures
    exact Report.ext hcount houtput hfailures
  · rw [disassemble, imageItems_returnFeeds, disassemble]

end HexAsm
