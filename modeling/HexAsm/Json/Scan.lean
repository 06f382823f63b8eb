import HexAsm.Text.Hex

/-!
# Scanning JSON

The parts of a JSON text that have no inner structure: blanks, the three names, and strings. Each is read from the
front of a text and leaves the rest. A text that ends too early is told apart from one that breaks the grammar.
-/

namespace HexAsm.Json

/-- Why a JSON text cannot be read. -/
inductive Halt where
  /-- The text ends inside a value. -/
  | ended
  /-- The text breaks the grammar. -/
  | malformed
  deriving DecidableEq

/-! ## Blanks and names -/

/-- The characters that may stand between the parts of a JSON text. -/
def isBlank (c : Char) : Bool := c == ' ' || c == '\t' || c == '\n' || c == '\r'

/-- The text without the blanks it starts with. -/
def skipBlanks (cs : List Char) : List Char := cs.dropWhile isBlank

/-- The text after the given characters, which it must start with. -/
def expect : List Char → List Char → Except Halt (List Char)
  | [], cs => .ok cs
  | _ :: _, [] => .error .ended
  | e :: es, c :: cs => if c = e then expect es cs else .error .malformed

/-! ## Strings -/

/-- The value of four hexadecimal digits. Fewer than four bytes are too few, whatever they are. -/
def hexQuad (cs : List Char) : Except Halt (Nat × List Char) :=
  match cs with
  | a :: b :: c :: d :: rest =>
    match Hex.number? [a, b, c, d] with
    | some n => .ok (n, rest)
    | none => .error .malformed
  | _ => .error (if (String.ofList cs).utf8ByteSize < 4 then .ended else .malformed)

/-- The second half of a pair of surrogates. -/
def trailingSurrogate (cs : List Char) : Except Halt (Nat × List Char) := do
  let rest ← expect ['\\', 'u'] cs
  let (n, rest) ← hexQuad rest
  if 0xDC00 ≤ n ∧ n ≤ 0xDFFF then .ok (n, rest) else .error .malformed

/-- The character that four digits name, or two groups of four that form a pair of surrogates. -/
def unicodeEscape (cs : List Char) : Except Halt (Char × List Char) := do
  let (n, rest) ← hexQuad cs
  if 0xDC00 ≤ n ∧ n ≤ 0xDFFF then .error .malformed
  else if 0xD800 ≤ n ∧ n ≤ 0xDBFF then
    let (m, rest) ← trailingSurrogate rest
    .ok (Char.ofNat (0x10000 + (n - 0xD800) * 0x400 + (m - 0xDC00)), rest)
  else .ok (Char.ofNat n, rest)

/-- The character that one letter after a backslash stands for. -/
def shortEscape? : Char → Option Char
  | '"' => some '"'
  | '\\' => some '\\'
  | '/' => some '/'
  | 'b' => some '\x08'
  | 'f' => some '\x0c'
  | 'n' => some '\n'
  | 'r' => some '\r'
  | 't' => some '\t'
  | _ => none

/-- The character that stands after a backslash. -/
def escape (cs : List Char) : Except Halt (Char × List Char) :=
  match cs with
  | [] => .error .ended
  | c :: rest =>
    if c = 'u' then unicodeEscape rest
    else
      match shortEscape? c with
      | some d => .ok (d, rest)
      | none => .error .malformed

theorem expect_length_le {es cs rest : List Char} (h : expect es cs = .ok rest) : rest.length ≤ cs.length := by
  induction es generalizing cs with
  | nil => cases h; exact Nat.le_refl _
  | cons e es ih =>
      cases cs with
      | nil => cases h
      | cons c cs =>
          rw [expect] at h
          split at h
          · exact Nat.le_succ_of_le (ih h)
          · cases h

theorem hexQuad_length_lt {cs rest : List Char} {n : Nat} (h : hexQuad cs = .ok (n, rest)) :
    rest.length < cs.length := by
  rw [hexQuad.eq_def] at h
  split at h
  · split at h
    · cases h; simp only [List.length_cons]; omega
    · cases h
  · cases h

theorem trailingSurrogate_length_lt {cs rest : List Char} {n : Nat}
    (h : trailingSurrogate cs = .ok (n, rest)) : rest.length < cs.length := by
  simp only [trailingSurrogate, bind, Except.bind] at h
  split at h
  · cases h
  · next r hr =>
    split at h
    · cases h
    · next q hq =>
      obtain ⟨m, t⟩ := q
      split at h
      · cases h; exact Nat.lt_of_lt_of_le (hexQuad_length_lt hq) (expect_length_le hr)
      · cases h

theorem unicodeEscape_length_lt {cs rest : List Char} {c : Char} (h : unicodeEscape cs = .ok (c, rest)) :
    rest.length < cs.length := by
  simp only [unicodeEscape, bind, Except.bind] at h
  split at h
  · cases h
  · next q hq =>
    obtain ⟨n, t⟩ := q
    have ht := hexQuad_length_lt hq
    split at h
    · cases h
    · split at h
      · split at h
        · cases h
        · next p hp =>
          obtain ⟨m, u⟩ := p
          simp only [Except.ok.injEq, Prod.mk.injEq] at h
          obtain ⟨-, rfl⟩ := h
          exact Nat.lt_trans (trailingSurrogate_length_lt hp) ht
      · simp only [Except.ok.injEq, Prod.mk.injEq] at h
        obtain ⟨-, rfl⟩ := h
        exact ht

theorem escape_length_lt {cs rest : List Char} {c : Char} (h : escape cs = .ok (c, rest)) :
    rest.length < cs.length := by
  rw [escape.eq_def] at h
  split at h
  · cases h
  · split at h
    · exact Nat.lt_succ_of_lt (unicodeEscape_length_lt h)
    · split at h
      · cases h; exact Nat.lt_succ_self _
      · cases h

/-- The characters of a string up to its closing quotation mark. -/
def stringTail (cs : List Char) : Except Halt (List Char × List Char) :=
  match cs with
  | [] => .error .ended
  | c :: rest =>
    if c = '"' then .ok ([], rest)
    else if c = '\\' then
      match h : escape rest with
      | .error e => .error e
      | .ok (d, rest') =>
        have := escape_length_lt h
        (stringTail rest').map fun (s, rest) => (d :: s, rest)
    else if c.toNat < 0x20 then .error .malformed
    else (stringTail rest).map fun (s, rest) => (c :: s, rest)
termination_by cs.length
decreasing_by all_goals simp only [List.length_cons]; omega

end HexAsm.Json
