import HexAsm.Proofs.Lemmas.Image

/-!
# Layouts of an image

Words can be laid out in an image in many ways, and all of them are read as the same words. A rendered image is one of
these ways, with each word on a line of its own and its digits in upper case.
-/

namespace HexAsm.Image

open HexAsm.Text

/-- However words are laid out, the entries of the image are the texts that stand for them, in order and with the
numbers of their lines, and they read back as the words. A rendered image is such a layout, with the words in upper
case. -/
theorem entries_of_laidOut :
    (∀ ws es text, LaidOut ws es text.toList →
        entries text = es ∧ es.map (fun e => Word.ofText e.2) = ws.map .ok) ∧
      ∀ (ws : List Word) (withHeader : Bool),
        let es := (ws.zipIdx (if withHeader then 3 else 1)).map fun (w, number) => (number, w.text.toUpper)
        LaidOut ws es (render ws withHeader).toList ∧ entries (render ws withHeader) = es := by
  refine ⟨fun ws es text h => ⟨h.entries_eq, h.ofText_eq⟩, fun ws withHeader => ?_⟩
  simp only [Word.toUpper_text]
  exact ⟨laidOut_render ws withHeader, entries_render ws withHeader⟩

/-- A format line between blanks, comments, a line with two words, an empty line and a last line that is not ended. -/
theorem entries_of_laidOut_mixed :
    let text := "\tv2.0 raw # one\r\n# two\r\n1f001234\u00a0 b0000000#three\n\r\n C3001234 \r"
    let es := [(3, "1f001234"), (3, "b0000000"), (5, "C3001234")]
    let ws := [⟨0x1F001234⟩, ⟨0xB0000000⟩, ⟨0xC3001234⟩]
    LaidOut ws es text.toList ∧ entries text = es ∧ es.map (fun e => Word.ofText e.2) = ws.map .ok := by
  intro text es ws
  have hw₁ : Word.Written ⟨0x1F001234⟩ "1f001234".toList := ⟨rfl, Hex.number?_eq_some.mp (by decide)⟩
  have hw₂ : Word.Written ⟨0xB0000000⟩ "b0000000".toList := ⟨rfl, Hex.number?_eq_some.mp (by decide)⟩
  have hw₃ : Word.Written ⟨0xC3001234⟩ "C3001234".toList := ⟨rfl, Hex.number?_eq_some.mp (by decide)⟩
  have hspace : Gap [' '] := by decide
  have htab : Gap ['\t'] := by decide
  have htwo : Remark "# two".toList := .present (by decide)
  have hthree : Remark "#three".toList := .present (by decide)
  have hformat : FormatLine "\tv2.0 raw # one".toList := .mk htab hspace (.present (by decide))
  have hpair : Row [⟨0x1F001234⟩, ⟨0xB0000000⟩] ["1f001234", "b0000000"] "1f001234\u00a0 b0000000".toList :=
    .cons (g := []) gap_nil hw₁ (by simp [Breaks]; decide)
      (.cons (g := ['\u00a0', ' ']) (by decide) hw₂ (by simp [Breaks]) (.nil gap_nil))
  have hlast : Row [⟨0xC3001234⟩] ["C3001234"] " C3001234 \r".toList :=
    .cons (g := [' ']) hspace hw₃ (by simp [Breaks]; decide) (.nil (g := [' ', '\r']) (by decide))
  have hrows := Rows.cons (n := 2) (.nil gap_nil) htwo .returnFeed <| .cons hpair hthree .feed <|
    .cons (.nil gap_nil) .absent .returnFeed <| .last hlast .absent
  have h : LaidOut ws es text.toList := by
    simpa [text, es, ws] using LaidOut.format hformat .returnFeed hrows
  exact ⟨h, entries_of_laidOut.1 ws es text h⟩

end HexAsm.Image
