import HexAsm.Machine.Encoding
import HexAsm.Program.Image
import HexAsm.Proofs.Lemmas.Hex
import HexAsm.Proofs.Lemmas.Lines
import Mathlib.Data.List.TakeWhile

/-!
# Images

Words can be laid out in an image in many ways: in rows of any length, between blanks, with comments behind them and a
format line before them. However they are laid out, the entries of the image are their texts, with the numbers of their
lines. A rendered image is one of these layouts.
-/

namespace HexAsm

open HexAsm.Text

/-! ## Written words -/

/-- The text is the word as eight digits, each in either case. -/
structure Word.Written (w : Word) (cs : List Char) : Prop where
  length_eq : cs.length = 8
  value : ∃ ds, List.Forall₂ Hex.Stands cs ds ∧ w.raw.toNat = Nat.ofDigits 16 ds.reverse

namespace Word.Written

variable {w : Word} {cs : List Char}

theorem isAlphanum (h : w.Written cs) : ∀ c ∈ cs, c.isAlphanum = true := by
  obtain ⟨ds, hds, -⟩ := h.value
  intro c hc
  obtain ⟨d, -, hd⟩ := exists_right_of_forall₂ hds hc
  exact hd.isAlphanum

theorem ne_nil (h : w.Written cs) : cs ≠ [] := by
  rintro rfl
  exact absurd h.length_eq (by decide)

theorem solid (h : w.Written cs) : Solid cs := fun c hc => isBlank_of_isAlphanum (h.isAlphanum c hc)

theorem ofText (h : w.Written cs) : Word.ofText (String.ofList cs) = .ok w := by
  obtain ⟨ds, hds, hw⟩ := h.value
  have hn : Hex.number? cs = some w.raw.toNat := Hex.number?_eq_some.mpr ⟨ds, hds, hw⟩
  simp [Word.ofText, h.length_eq, Word.width, hn]

end Word.Written

theorem Word.written_text (w : Word) : w.Written w.text.toList := by
  have hmod : w.raw.toNat % 16 ^ width = w.raw.toNat := Nat.mod_eq_of_lt w.raw.toNat_lt
  rw [text, String.toList_ofList]
  refine ⟨Hex.digits_length .., Hex.number?_eq_some.mp ?_⟩
  rw [Hex.number?_digits, hmod]

theorem Word.toUpper_text (w : Word) : w.text.toUpper = w.text := by
  have hupper : ∀ c ∈ w.text.toList, c.toUpper = c := by
    intro c hc
    rw [text, String.toList_ofList] at hc
    exact Hex.toUpper_of_mem_alphabet (Hex.mem_alphabet_of_mem_digits hc)
  rw [String.toUpper, ← String.toList_inj, String.toList_map, List.map_congr_left hupper, List.map_id']

theorem Word.ofText_text (w : Word) : Word.ofText w.text = .ok w := by
  simpa using w.written_text.ofText

/-! ## Layouts -/

namespace Image

/-- Blanks within a line. -/
def Gap (g : List Char) : Prop := Blanks g ∧ '\n' ∉ g

theorem gap_iff {g : List Char} : Gap g ↔ g.all (fun c => isBlank c && c != '\n') = true := by
  simp only [Gap, Blanks, List.all_eq_true, Bool.and_eq_true, bne_iff_ne]
  constructor
  · intro h c hc
    exact ⟨h.1 c hc, fun hn => h.2 (hn ▸ hc)⟩
  · intro h
    exact ⟨fun c hc => (h c hc).1, fun hn => (h _ hn).2 rfl⟩

instance (g : List Char) : Decidable (Gap g) := decidable_of_iff _ gap_iff.symm

/-- Words on a line and the texts that stand for them. Blanks stand between the words, and may stand around them. -/
inductive Row : List Word → List String → List Char → Prop
  | nil {g} : Gap g → Row [] [] g
  | cons {g w t ws ts cs} : Gap g → w.Written t → Breaks cs → Row ws ts cs →
      Row (w :: ws) (String.ofList t :: ts) (g ++ t ++ cs)

/-- Nothing, or a comment. -/
inductive Remark : List Char → Prop
  | absent : Remark []
  | present {cs} : '\n' ∉ cs → Remark ('#' :: cs)

/-- Rows of words on consecutive lines, the first with the given number. The last line need not be ended. -/
inductive Rows : Nat → List Word → List (Nat × String) → List Char → Prop
  | last {n ws ts row remark} : Row ws ts row → Remark remark → Rows n ws (ts.map (n, ·)) (row ++ remark)
  | cons {n ws ts row remark e ws' es cs} : Row ws ts row → Remark remark → LineEnd e → Rows (n + 1) ws' es cs →
      Rows n (ws ++ ws') (ts.map (n, ·) ++ es) (row ++ remark ++ e ++ cs)

/-- The line names the format, between blanks and before a comment. -/
inductive FormatLine : List Char → Prop
  | mk {before after remark} : Gap before → Gap after → Remark remark →
      FormatLine (before ++ "v2.0 raw".toList ++ after ++ remark)

/-- Words laid out in an image, and the entries that stand for them: on all lines, or below a format line. -/
inductive LaidOut : List Word → List (Nat × String) → List Char → Prop
  | rows {ws es cs} : Rows 1 ws es cs → LaidOut ws es cs
  | formatOnly {line} : FormatLine line → LaidOut [] [] line
  | format {line e ws es cs} : FormatLine line → LineEnd e → Rows 2 ws es cs → LaidOut ws es (line ++ e ++ cs)

/-! ## Entries of a line -/

theorem body_append {cs remark : List Char} (hcs : '#' ∉ cs) (hr : Remark remark) : body (cs ++ remark) = cs := by
  have hall : ∀ c ∈ cs, (c != '#') = true := by
    intro c hc
    rw [bne_iff_ne]
    rintro rfl
    exact hcs hc
  rw [body, List.takeWhile_append_of_pos hall]
  cases hr <;> simp

theorem Remark.one_line {cs : List Char} (h : Remark cs) : '\n' ∉ cs := by
  cases h with
  | absent => simp
  | present hn => simpa using hn

theorem Gap.no_remark {g : List Char} (h : Gap g) : '#' ∉ g := by
  intro hc
  exact absurd (h.1 '#' hc) (by decide)

namespace Row

variable {ws : List Word} {ts : List String} {row : List Char}

theorem words_eq (h : Row ws ts row) : (words row).map String.ofList = ts := by
  induction h with
  | nil hg => simpa [words] using words_blanks hg.1 []
  | cons hg hw hb _ ih => rw [List.append_assoc, words_blanks hg.1, words_solid hw.ne_nil hw.solid hb, List.map_cons, ih]

theorem not_mem (h : Row ws ts row) {c : Char} (hc : c.isAlphanum = false) (hg : ∀ g, Gap g → c ∉ g) : c ∉ row := by
  induction h with
  | nil hgap => exact hg _ hgap
  | cons hgap hw _ _ ih =>
      simp only [List.mem_append, not_or]
      refine ⟨⟨hg _ hgap, fun h => ?_⟩, ih⟩
      rw [hw.isAlphanum c h] at hc
      cases hc

theorem one_line (h : Row ws ts row) : '\n' ∉ row := h.not_mem (by decide) fun _ hg => hg.2

theorem no_remark (h : Row ws ts row) : '#' ∉ row := h.not_mem (by decide) fun _ hg => hg.no_remark

theorem ofText_eq (h : Row ws ts row) : ts.map Word.ofText = ws.map .ok := by
  induction h with
  | nil _ => rfl
  | cons _ hw _ _ ih => rw [List.map_cons, List.map_cons, hw.ofText, ih]

theorem length_of_mem (h : Row ws ts row) : ∀ t ∈ ts, t.length = 8 := by
  induction h with
  | nil _ => simp
  | cons _ hw _ _ ih => exact List.forall_mem_cons.mpr ⟨by simpa using hw.length_eq, ih⟩

/-- A row of words is not the format line, whose last word has three characters. -/
theorem trim_ne (h : Row ws ts row) : trim row ≠ formatLine.toList := by
  intro heq
  have hraw : "raw" ∈ ts := by
    rw [← h.words_eq, ← words_trim, heq]
    decide
  exact absurd (h.length_of_mem _ hraw) (by decide)

theorem entriesOfLine_eq (h : Row ws ts row) {remark : List Char} (hr : Remark remark) (n : Nat) :
    entriesOfLine (row ++ remark) n = ts := by
  rw [entriesOfLine, body_append h.no_remark hr, if_neg fun hn => h.trim_ne hn.2, h.words_eq]

end Row

theorem FormatLine.one_line {line : List Char} (h : FormatLine line) : '\n' ∉ line := by
  cases h with
  | mk hb ha hr =>
      simp [hb.2, ha.2, hr.one_line]

theorem FormatLine.entriesOfLine_eq {line : List Char} (h : FormatLine line) : entriesOfLine line 1 = [] := by
  cases h with
  | @mk before after remark hb ha hr =>
      have hbody : body (before ++ "v2.0 raw".toList ++ after ++ remark) = before ++ "v2.0 raw".toList ++ after :=
        body_append (by simp [hb.no_remark, ha.no_remark]) hr
      have htrimmed : Trimmed "v2.0 raw".toList := by
        simp [Trimmed]
        decide
      rw [entriesOfLine, hbody, trim_eq hb.1 ha.1 htrimmed, if_pos ⟨rfl, rfl⟩]

/-- A blank at the end of a line makes no difference. -/
theorem entriesOfLine_append_blank {b : Char} (hb : isBlank b = true) (line : List Char) (n : Nat) :
    entriesOfLine (line ++ [b]) n = entriesOfLine line n := by
  have hblanks : Blanks [b] := by simpa [Blanks] using hb
  have hne : (b != '#') = true := by
    rw [bne_iff_ne]
    rintro rfl
    exact absurd hb (by decide)
  -- The blank belongs to the comment, if the line has one.
  have hbody : body (line ++ [b]) = body line ∨ body (line ++ [b]) = body line ++ [b] := by
    rw [body, List.takeWhile_append]
    split
    · rename_i hall
      rw [body, List.takeWhile_prefix _ |>.eq_of_length hall]
      simp [hne]
    · exact .inl rfl
  rcases hbody with h | h
  · rw [entriesOfLine, entriesOfLine, h]
  · rw [entriesOfLine, entriesOfLine, h, trim_append_blanks hblanks, words_append_blanks hblanks]

/-! ## Entries of an image -/

/-- The entries of a text whose first line has the given number. -/
def entriesFrom (n : Nat) (cs : List Char) : List (Nat × String) :=
  ((lines cs).zipIdx n).flatMap fun (line, number) => (entriesOfLine line number).map fun entry => (number, entry)

theorem entriesFrom_line {line e : List Char} (hn : '\n' ∉ line) (he : LineEnd e) (n : Nat) (rest : List Char) :
    entriesFrom n (line ++ e ++ rest) = (entriesOfLine line n).map (n, ·) ++ entriesFrom (n + 1) rest := by
  obtain ⟨l, hl, hline⟩ := exists_lines_line hn he rest
  have heq : entriesOfLine l n = entriesOfLine line n := by
    rcases hline with rfl | rfl
    · rfl
    · exact (entriesOfLine_append_blank (by decide) l n).symm
  rw [entriesFrom, hl, List.zipIdx_cons, List.flatMap_cons, ← heq]
  rfl

theorem entriesFrom_last {line : List Char} (hn : '\n' ∉ line) (n : Nat) :
    entriesFrom n line = (entriesOfLine line n).map (n, ·) := by
  cases line with
  | nil => rw [entriesFrom, entriesOfLine, lines, if_neg (by simp [body, trim, trimStart, trimEnd, formatLine])]; rfl
  | cons c cs => simp [entriesFrom, lines_last hn]

namespace Rows

variable {n : Nat} {ws : List Word} {es : List (Nat × String)} {cs : List Char}

theorem entriesFrom_eq (h : Rows n ws es cs) : entriesFrom n cs = es := by
  induction h with
  | last hrow hr =>
      have hn := List.not_mem_append hrow.one_line hr.one_line
      rw [entriesFrom_last hn, hrow.entriesOfLine_eq hr]
  | cons hrow hr he _ ih =>
      have hn := List.not_mem_append hrow.one_line hr.one_line
      rw [entriesFrom_line hn he, hrow.entriesOfLine_eq hr, ih]

theorem ofText_eq (h : Rows n ws es cs) : es.map (fun e => Word.ofText e.2) = ws.map .ok := by
  induction h with
  | last hrow _ => simpa [Function.comp_def] using hrow.ofText_eq
  | cons hrow _ _ _ ih => simpa [Function.comp_def, ih] using hrow.ofText_eq

end Rows

namespace LaidOut

variable {ws : List Word} {es : List (Nat × String)} {text : String}

theorem entries_eq (h : LaidOut ws es text.toList) : entries text = es := by
  change entriesFrom 1 text.toList = es
  generalize text.toList = cs at h
  cases h with
  | rows hrows => exact hrows.entriesFrom_eq
  | formatOnly hline => rw [entriesFrom_last hline.one_line, hline.entriesOfLine_eq, List.map_nil]
  | format hline he hrows =>
      rw [entriesFrom_line hline.one_line he, hline.entriesOfLine_eq, hrows.entriesFrom_eq, List.map_nil, List.nil_append]

theorem ofText_eq {cs : List Char} (h : LaidOut ws es cs) : es.map (fun e => Word.ofText e.2) = ws.map .ok := by
  cases h with
  | rows hrows => exact hrows.ofText_eq
  | formatOnly _ => rfl
  | format _ _ hrows => exact hrows.ofText_eq

end LaidOut

/-! ## Rendered images -/

theorem gap_nil : Gap [] := ⟨by simp [Blanks], by simp⟩

theorem row_text (w : Word) : Row [w] [w.text] w.text.toList := by
  have h : Row [w] [String.ofList w.text.toList] ([] ++ w.text.toList ++ []) :=
    .cons gap_nil w.written_text (by simp [Breaks]) (.nil gap_nil)
  simpa using h

theorem rows_texts (ws : List Word) (n : Nat) :
    Rows n ws ((ws.zipIdx n).map fun (w, number) => (number, w.text)) (unlines (ws.map Word.text)).toList := by
  rw [unlines, String.toList_ofList]
  induction ws generalizing n with
  | nil => exact .last (.nil gap_nil) .absent
  | cons w ws ih => simpa using Rows.cons (row_text w) .absent .feed (ih (n + 1))

theorem laidOut_render (ws : List Word) (withHeader : Bool) :
    LaidOut ws ((ws.zipIdx (if withHeader then 3 else 1)).map fun (w, number) => (number, w.text))
      (render ws withHeader).toList := by
  cases withHeader with
  | false => exact .rows (rows_texts ws 1)
  | true =>
      have hformat : FormatLine formatLine.toList := FormatLine.mk gap_nil gap_nil .absent
      have hcomment : Remark "# nibble-asm image".toList := .present (by decide)
      have hrows := Rows.cons (.nil gap_nil) hcomment .feed (rows_texts ws 3)
      simpa [render, unlines, header] using LaidOut.format hformat .feed hrows

/-- A rendered image has one entry for each word, on the line after the header and the words before it. -/
theorem entries_render (ws : List Word) (withHeader : Bool) :
    entries (render ws withHeader) =
      (ws.zipIdx (if withHeader then 3 else 1)).map fun (w, number) => (number, w.text) :=
  (laidOut_render ws withHeader).entries_eq

end Image

end HexAsm
