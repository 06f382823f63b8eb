import HexAsm.Json.Numeral
import HexAsm.Proofs.Lemmas.Hex

/-!
# JSON texts

How the parts of a JSON text are written: blanks, strings with their escapes, decimal numerals, and the items of an array
or an object. Each part is read exactly as it is written, and what follows it is left.
-/

namespace HexAsm.Json

/-! ## Blanks and names -/

/-- Spaces, tabs and line ends. -/
def Blanks (g : List Char) : Prop := ∀ c ∈ g, c = ' ' ∨ c = '\t' ∨ c = '\r' ∨ c = '\n'

theorem isBlank_iff {c : Char} : isBlank c = true ↔ c = ' ' ∨ c = '\t' ∨ c = '\r' ∨ c = '\n' := by
  simp only [isBlank, Bool.or_eq_true, beq_iff_eq]
  exact ⟨by tauto, by tauto⟩

theorem isBlank_of_isDigit {c : Char} (h : c.isDigit = true) : isBlank c = false := by
  by_contra hc
  rcases isBlank_iff.mp (Bool.not_eq_false _ ▸ hc) with rfl | rfl | rfl | rfl <;> exact absurd h (by decide)

theorem blanks_nil : Blanks [] := by simp [Blanks]

theorem Blanks.append {g g' : List Char} (h : Blanks g) (h' : Blanks g') : Blanks (g ++ g') :=
  List.forall_mem_append.mpr ⟨h, h'⟩

theorem Blanks.isBlank {g : List Char} (h : Blanks g) : ∀ c ∈ g, Json.isBlank c = true :=
  fun c hc => isBlank_iff.mpr (h c hc)

theorem skipBlanks_blanks {g : List Char} (hg : Blanks g) (cs : List Char) : skipBlanks (g ++ cs) = skipBlanks cs :=
  List.dropWhile_append_of_pos hg.isBlank

theorem skipBlanks_cons {c : Char} (hc : isBlank c = false) (cs : List Char) : skipBlanks (c :: cs) = c :: cs := by
  simp [skipBlanks, hc]

theorem exists_skipBlanks (cs : List Char) : ∃ g, Blanks g ∧ cs = g ++ skipBlanks cs :=
  ⟨cs.takeWhile isBlank, fun c hc => isBlank_iff.mp (List.all_eq_true.mp List.all_takeWhile c hc),
    List.takeWhile_append_dropWhile.symm⟩

theorem skipBlanks_eq_cons {cs rest : List Char} {c : Char} (h : skipBlanks cs = c :: rest) :
    ∃ g, Blanks g ∧ cs = g ++ c :: rest := by
  obtain ⟨g, hg, hcs⟩ := exists_skipBlanks cs
  rw [h] at hcs
  exact ⟨g, hg, hcs⟩

theorem skipBlanks_eq_nil {cs : List Char} : skipBlanks cs = [] ↔ Blanks cs := by
  constructor
  · intro h
    obtain ⟨g, hg, hcs⟩ := exists_skipBlanks cs
    rw [h, List.append_nil] at hcs
    rw [hcs]
    exact hg
  · intro h
    simpa [skipBlanks] using skipBlanks_blanks h []

theorem expect_eq_ok {es cs rest : List Char} : expect es cs = .ok rest ↔ cs = es ++ rest := by
  induction es generalizing cs with
  | nil => simp [expect]
  | cons e es ih =>
      cases cs with
      | nil => simp [expect]
      | cons c cs =>
          rw [expect]
          split
          · rename_i h
            simp [h, ih]
          · rename_i h
            simp [h]

/-! ## Strings -/

/-- Four hexadecimal digits for a number. -/
structure Quad (n : Nat) (ds : List Char) : Prop where
  length_eq : ds.length = 4
  value : ∃ vs, List.Forall₂ Hex.Stands ds vs ∧ n = Nat.ofDigits 16 vs.reverse

/-- The letters that stand for a character behind a backslash. -/
def escapes : List (Char × Char) :=
  [('"', '"'), ('\\', '\\'), ('/', '/'), ('b', '\x08'), ('f', '\x0c'), ('n', '\n'), ('r', '\r'), ('t', '\t')]

/-- A character of a string as it is written: itself, a letter behind a backslash, four digits, or two groups of four
digits that form a pair of surrogates. -/
inductive Written : Char → List Char → Prop
  | plain {c} : c ≠ '"' → c ≠ '\\' → 0x20 ≤ c.toNat → Written c [c]
  | letter {e c} : (e, c) ∈ escapes → Written c ['\\', e]
  | digits {n ds} : Quad n ds → n < 0xD800 ∨ 0xDFFF < n → Written (Char.ofNat n) ('\\' :: 'u' :: ds)
  | pair {n ds m es} : Quad n ds → 0xD800 ≤ n → n ≤ 0xDBFF → Quad m es → 0xDC00 ≤ m → m ≤ 0xDFFF →
      Written (Char.ofNat (0x10000 + (n - 0xD800) * 0x400 + (m - 0xDC00))) ('\\' :: 'u' :: ds ++ '\\' :: 'u' :: es)

/-- The characters of a string as they are written between quotation marks. -/
inductive Quoted : List Char → List Char → Prop
  | nil : Quoted [] []
  | cons {c t s ts} : Written c t → Quoted s ts → Quoted (c :: s) (t ++ ts)

theorem hexQuad_eq_ok {cs rest : List Char} {n : Nat} :
    hexQuad cs = .ok (n, rest) ↔ ∃ ds, Quad n ds ∧ cs = ds ++ rest := by
  constructor
  · intro h
    rw [hexQuad.eq_def] at h
    split at h
    · rename_i a b c d rest'
      split at h
      · rename_i m hm
        cases h
        exact ⟨[a, b, c, d], ⟨rfl, Hex.number?_eq_some.mp hm⟩, rfl⟩
      · cases h
    · cases h
  · rintro ⟨ds, hds, rfl⟩
    have hn := Hex.number?_eq_some.mpr hds.value
    obtain ⟨a, ds, rfl⟩ := List.exists_cons_of_length_eq_add_one hds.length_eq
    obtain ⟨b, c, d, rfl⟩ := List.length_eq_three.mp (Nat.succ.inj hds.length_eq)
    simp only [hexQuad, List.cons_append, List.nil_append, hn]

theorem trailingSurrogate_eq_ok {cs rest : List Char} {m : Nat} :
    trailingSurrogate cs = .ok (m, rest) ↔
      ∃ es, Quad m es ∧ 0xDC00 ≤ m ∧ m ≤ 0xDFFF ∧ cs = '\\' :: 'u' :: es ++ rest := by
  simp only [trailingSurrogate, bind_eq_ok, expect_eq_ok]
  constructor
  · rintro ⟨u, rfl, ⟨k, v⟩, hk, h⟩
    obtain ⟨es, hes, rfl⟩ := hexQuad_eq_ok.mp hk
    split at h
    · rename_i hm
      cases h
      exact ⟨es, hes, hm.1, hm.2, rfl⟩
    · cases h
  · rintro ⟨es, hes, h₁, h₂, rfl⟩
    refine ⟨es ++ rest, rfl, (m, rest), hexQuad_eq_ok.mpr ⟨es, hes, rfl⟩, ?_⟩
    exact if_pos ⟨h₁, h₂⟩

theorem shortEscape?_eq_some {e c : Char} : shortEscape? e = some c ↔ (e, c) ∈ escapes := by
  constructor
  · intro h
    unfold shortEscape? at h
    split at h <;> cases h <;> simp [escapes]
  · intro h
    have all : ∀ p ∈ escapes, shortEscape? p.1 = some p.2 := by decide
    exact all _ h

theorem unicodeEscape_eq_ok {cs rest : List Char} {c : Char} :
    unicodeEscape cs = .ok (c, rest) ↔ ∃ t, Written c ('\\' :: 'u' :: t) ∧ cs = t ++ rest := by
  simp only [unicodeEscape, bind_eq_ok]
  constructor
  · rintro ⟨⟨n, u⟩, hn, h⟩
    obtain ⟨ds, hds, rfl⟩ := hexQuad_eq_ok.mp hn
    split at h
    · cases h
    · rename_i hlow
      split at h
      · rename_i hhigh
        obtain ⟨⟨m, v⟩, hm, h⟩ := bind_eq_ok.mp h
        obtain ⟨es, hes, h₁, h₂, rfl⟩ := trailingSurrogate_eq_ok.mp hm
        simp only [Except.ok.injEq, Prod.mk.injEq] at h
        obtain ⟨rfl, rfl⟩ := h
        exact ⟨ds ++ '\\' :: 'u' :: es, .pair hds hhigh.1 hhigh.2 hes h₁ h₂, by simp⟩
      · rename_i hhigh
        cases h
        exact ⟨ds, .digits hds (by omega), rfl⟩
  · rintro ⟨t, h, rfl⟩
    cases h with
    | letter he => exact absurd he (by simp [escapes])
    | @digits n _ hds hn =>
        refine ⟨(n, rest), hexQuad_eq_ok.mpr ⟨t, hds, rfl⟩, ?_⟩
        rw [if_neg (by omega), if_neg (by omega)]
    | @pair n ds m es hds h₁ h₂ hes h₃ h₄ =>
        refine ⟨(n, '\\' :: 'u' :: es ++ rest), hexQuad_eq_ok.mpr ⟨ds, hds, by simp⟩, ?_⟩
        rw [if_neg (by omega), if_pos ⟨h₁, h₂⟩]
        exact bind_eq_ok.mpr ⟨(m, rest), trailingSurrogate_eq_ok.mpr ⟨es, hes, h₃, h₄, rfl⟩, rfl⟩

theorem escape_eq_ok {cs rest : List Char} {c : Char} :
    escape cs = .ok (c, rest) ↔ ∃ t, Written c ('\\' :: t) ∧ cs = t ++ rest := by
  cases cs with
  | nil =>
      constructor
      · intro h
        cases h
      · rintro ⟨t, h, ht⟩
        rw [(List.append_eq_nil_iff.mp ht.symm).1] at h
        cases h with
        | plain _ hc _ => exact absurd rfl hc
  | cons e cs =>
      by_cases he : e = 'u'
      · subst he
        rw [escape, if_pos rfl, unicodeEscape_eq_ok]
        constructor
        · rintro ⟨t, h, rfl⟩
          exact ⟨'u' :: t, h, rfl⟩
        · rintro ⟨t, h, ht⟩
          cases t with
          | nil =>
              cases h with
              | plain _ hc _ => exact absurd rfl hc
          | cons d t =>
              obtain ⟨rfl, rfl⟩ := List.cons.inj ht
              exact ⟨t, h, rfl⟩
      · have hletter : escape (e :: cs) = .ok (c, rest) ↔ (e, c) ∈ escapes ∧ cs = rest := by
          rw [escape, if_neg he, ← shortEscape?_eq_some]
          cases shortEscape? e <;> simp
        rw [hletter]
        constructor
        · rintro ⟨hmem, rfl⟩
          exact ⟨[e], .letter hmem, rfl⟩
        · rintro ⟨t, h, ht⟩
          cases h with
          | plain _ hc _ => exact absurd rfl hc
          | letter hmem =>
              obtain ⟨rfl, rfl⟩ := List.cons.inj ht
              exact ⟨hmem, rfl⟩
          | digits _ _ => exact absurd (List.cons.inj ht).1 he
          | pair _ _ _ _ _ _ => exact absurd (List.cons.inj ht).1 he

theorem stringTail_quote (cs : List Char) : stringTail ('"' :: cs) = .ok ([], cs) := by
  rw [stringTail, if_pos rfl]

theorem stringTail_written {c : Char} {t : List Char} (h : Written c t) (cs : List Char) :
    stringTail (t ++ cs) = (stringTail cs).map fun r => (c :: r.1, r.2) := by
  -- all ways but the first start with a backslash, and the escape reads what follows it
  have hescape : ∀ u, t = '\\' :: u → stringTail (t ++ cs) = (stringTail cs).map fun r => (c :: r.1, r.2) := by
    rintro u rfl
    have hu : escape (u ++ cs) = .ok (c, cs) := escape_eq_ok.mpr ⟨u, h, rfl⟩
    rw [List.cons_append, stringTail, if_neg (by decide), if_pos rfl]
    split
    · rename_i he
      rw [hu] at he
      cases he
    · rename_i he
      rw [hu] at he
      cases he
      rfl
  cases h with
  | plain hq hb hc =>
      rw [List.singleton_append, stringTail, if_neg hq, if_neg hb, if_neg (by omega)]
  | letter _ => exact hescape _ rfl
  | digits _ _ => exact hescape _ rfl
  | pair _ _ _ _ _ _ => exact hescape _ rfl

theorem quoted_of_stringTail {cs s rest : List Char} (h : stringTail cs = .ok (s, rest)) :
    ∃ t, Quoted s t ∧ cs = t ++ '"' :: rest := by
  fun_induction stringTail cs generalizing s with
  | case1 => cases h
  | case2 =>
      cases h
      exact ⟨[], .nil, rfl⟩
  | case3 => cases h
  | case4 _ d cs' hd _ _ ih =>
      obtain ⟨u, hu, rfl⟩ := escape_eq_ok.mp hd
      obtain ⟨⟨s', rest'⟩, hs, heq⟩ := map_eq_ok.mp h
      cases heq
      obtain ⟨t, ht, rfl⟩ := ih hs
      exact ⟨_, .cons hu ht, by simp⟩
  | case5 => cases h
  | case6 c cs hq hb hc ih =>
      obtain ⟨⟨s', rest'⟩, hs, heq⟩ := map_eq_ok.mp h
      cases heq
      obtain ⟨t, ht, rfl⟩ := ih hs
      exact ⟨_, .cons (.plain hq hb (by omega)) ht, rfl⟩

theorem Quoted.stringTail {s t : List Char} (h : Quoted s t) (rest : List Char) :
    stringTail (t ++ '"' :: rest) = .ok (s, rest) := by
  induction h with
  | nil => exact stringTail_quote rest
  | cons hc _ ih =>
      rw [List.append_assoc, stringTail_written hc, ih]
      rfl

theorem quoted_plain {s : List Char} (h : ∀ c ∈ s, c ≠ '"' ∧ c ≠ '\\' ∧ 0x20 ≤ c.toNat) : Quoted s s := by
  induction s with
  | nil => exact .nil
  | cons c s ih =>
      obtain ⟨hq, hb, hc⟩ := h c (by simp)
      exact .cons (.plain hq hb hc) (ih fun d hd => h d (by simp [hd]))

/-! ## Numerals -/

/-- Decimal digits for a number, without zeros in front of it. -/
structure Whole (n : Nat) (ds : List Char) : Prop where
  ne_nil : ds ≠ []
  isDigit : ∀ c ∈ ds, c.isDigit = true
  no_leading_zero : ∀ es, ds = '0' :: es → es = []
  value : n = Nat.ofDigitChars 10 ds 0

/-- The text does not go on with a part of a numeral. -/
def NumeralEnds (rest : List Char) : Prop :=
  ∀ c ∈ rest.head?, c.isDigit = false ∧ c ≠ '.' ∧ c ≠ 'e' ∧ c ≠ 'E'

theorem digitRun_eq_ok {cs rest : List Char} {vs : List Nat} :
    digitRun cs = .ok (vs, rest) ↔
      ∃ ds, ds ≠ [] ∧ (∀ c ∈ ds, c.isDigit = true) ∧ vs = ds.map (fun c => c.toNat - '0'.toNat) ∧ cs = ds ++ rest ∧
        ∀ c ∈ rest.head?, c.isDigit = false := by
  constructor
  · intro h
    rw [digitRun.eq_def] at h
    split at h
    · cases h
    · cases h
    · rename_i d ds hds
      cases h
      have hall : ∀ c ∈ d :: ds, c.isDigit = true := by
        rw [← hds]
        exact List.all_eq_true.mp List.all_takeWhile
      refine ⟨d :: ds, by simp, hall, rfl, ?_, ?_⟩
      · rw [← hds]
        exact List.takeWhile_append_dropWhile.symm
      · intro c hc
        have hnot := List.head?_dropWhile_not Char.isDigit cs
        rw [Option.mem_def.mp hc] at hnot
        exact hnot
  · rintro ⟨ds, hne, hds, rfl, rfl, hrest⟩
    have htake : (ds ++ rest).takeWhile Char.isDigit = ds := by
      rw [List.takeWhile_append_of_pos hds]
      cases rest with
      | nil => simp
      | cons c rest => simp [hrest c rfl]
    have hdrop : (ds ++ rest).dropWhile Char.isDigit = rest := by
      rw [List.dropWhile_append_of_pos hds]
      cases rest with
      | nil => rfl
      | cons c rest => simp [hrest c rfl]
    rw [digitRun.eq_def, htake, hdrop]
    cases ds with
    | nil => exact absurd rfl hne
    | cons d ds => rfl

theorem isDigit_sub_eq_zero {c : Char} (h : c.isDigit = true) : c.toNat - '0'.toNat = 0 ↔ c = '0' := by
  have hle := (Char.isDigit_iff_toNat.mp h).1
  constructor
  · intro h0
    exact Char.toNat_inj.mp (by omega)
  · rintro rfl
    rfl

theorem decimal_map (ds : List Char) : decimal (ds.map fun c => c.toNat - '0'.toNat) = Nat.ofDigitChars 10 ds 0 :=
  List.foldl_map

theorem wholeDigits_eq_ok {cs rest : List Char} {vs : List Nat} :
    wholeDigits cs = .ok (vs, rest) ↔
      ∃ ds, Whole (decimal vs) ds ∧ vs = ds.map (fun c => c.toNat - '0'.toNat) ∧ cs = ds ++ rest ∧
        ∀ c ∈ rest.head?, c.isDigit = false := by
  simp only [wholeDigits, bind_eq_ok]
  constructor
  · rintro ⟨⟨us, rest'⟩, hrun, h⟩
    obtain ⟨ds, hne, hds, rfl, rfl, hrest⟩ := digitRun_eq_ok.mp hrun
    split at h
    · cases h
    · rename_i hzero
      cases h
      refine ⟨ds, ⟨hne, hds, ?_, decimal_map ds⟩, rfl, rfl, hrest⟩
      rintro es rfl
      cases es with
      | nil => rfl
      | cons e es => exact absurd rfl (hzero _ _)
  · rintro ⟨ds, hwhole, rfl, rfl, hrest⟩
    refine ⟨(ds.map _, rest), digitRun_eq_ok.mpr ⟨ds, hwhole.ne_nil, hwhole.isDigit, rfl, rfl, hrest⟩, ?_⟩
    split
    · rename_i v vs hvs
      -- a zero before another digit
      obtain ⟨d, es, rfl, hd, hes⟩ := List.map_eq_cons_iff.mp hvs
      have hzero := (isDigit_sub_eq_zero (hwhole.isDigit d (by simp))).mp hd
      rw [hwhole.no_leading_zero es (by rw [hzero])] at hes
      cases hes
    · rfl

theorem fractionDigits_eq_none {cs rest : List Char} :
    fractionDigits cs = .ok (none, rest) ↔ cs = rest ∧ ∀ c ∈ rest.head?, c ≠ '.' := by
  rw [fractionDigits.eq_def]
  split
  · simp only [map_eq_ok, Prod.mk.injEq, reduceCtorEq, false_and, and_false, exists_false, false_iff]
    rintro ⟨rfl, h⟩
    exact h '.' rfl rfl
  · rename_i hdot
    simp only [Except.ok.injEq, Prod.mk.injEq, true_and, iff_self_and]
    rintro rfl c hc rfl
    obtain ⟨cs', rfl⟩ := List.head?_eq_some_iff.mp (Option.mem_def.mp hc)
    exact hdot cs' rfl

theorem exponentDigits_eq_none {cs rest : List Char} :
    exponentDigits cs = .ok (none, rest) ↔ cs = rest ∧ ∀ c ∈ rest.head?, c ≠ 'e' ∧ c ≠ 'E' := by
  cases cs with
  | nil =>
      simp only [exponentDigits, Except.ok.injEq, Prod.mk.injEq, true_and, iff_self_and]
      rintro rfl
      simp
  | cons c cs =>
      rw [exponentDigits]
      split
      · rename_i hc
        simp only [map_eq_ok, Prod.mk.injEq, reduceCtorEq, false_and, and_false, exists_false, false_iff]
        rintro ⟨rfl, h⟩
        have := h c rfl
        tauto
      · rename_i hc
        simp only [Except.ok.injEq, Prod.mk.injEq, true_and, iff_self_and]
        rintro rfl d hd
        cases Option.mem_def.mp hd
        tauto

theorem value_eq_natural {u : Numeral} {n : Nat} :
    u.value = .ok (.natural n) ↔
      u.negative = false ∧ u.fraction = none ∧ u.exponent = none ∧ n = decimal u.whole ∧ n < UInt64.size := by
  have hdouble : ∀ {n}, u.double ≠ .ok (.natural n) := by
    intro n h
    obtain ⟨x, -, hx⟩ := map_eq_ok.mp h
    cases hx
  obtain ⟨negative, whole, fraction, exponent⟩ := u
  cases fraction with
  | some ds => simp [Numeral.value, hdouble]
  | none =>
      cases exponent with
      | some e => simp [Numeral.value, hdouble]
      | none =>
          cases negative with
          | true =>
              simp only [Numeral.value, Bool.not_true, Bool.false_and, Bool.false_eq_true, if_false, reduceCtorEq,
                false_and, iff_false]
              split
              · simp
              · exact hdouble
          | false =>
              simp only [Numeral.value, Bool.not_false, Bool.true_and, decide_eq_true_eq, true_and, Bool.false_and,
                Bool.false_eq_true, if_false]
              split
              · rename_i hlt
                simp only [Except.ok.injEq, Number.natural.injEq]
                constructor
                · rintro rfl
                  exact ⟨rfl, hlt⟩
                · rintro ⟨rfl, -⟩
                  rfl
              · rename_i hlt
                constructor
                · intro h
                  exact absurd h hdouble
                · rintro ⟨rfl, h⟩
                  exact absurd h hlt

theorem unsignedNumeral_eq_whole {cs rest : List Char} {sign negative : Bool} {vs : List Nat} :
    unsignedNumeral sign cs = .ok (⟨negative, vs, none, none⟩, rest) ↔
      sign = negative ∧ ∃ ds, Whole (decimal vs) ds ∧ vs = ds.map (fun c => c.toNat - '0'.toNat) ∧ cs = ds ++ rest ∧
        NumeralEnds rest := by
  constructor
  · intro h
    obtain ⟨⟨us, rest₁⟩, hwhole, h⟩ := bind_eq_ok.mp h
    obtain ⟨⟨fraction, rest₂⟩, hfraction, h⟩ := bind_eq_ok.mp h
    obtain ⟨⟨exponent, rest₃⟩, hexponent, h⟩ := bind_eq_ok.mp h
    cases h
    obtain ⟨rfl, hdot⟩ := fractionDigits_eq_none.mp hfraction
    obtain ⟨rfl, he⟩ := exponentDigits_eq_none.mp hexponent
    obtain ⟨ds, hds, hvs, hcs, hdigit⟩ := wholeDigits_eq_ok.mp hwhole
    exact ⟨rfl, ds, hds, hvs, hcs, fun c hc => ⟨hdigit c hc, hdot c hc, he c hc⟩⟩
  · rintro ⟨rfl, ds, hds, hvs, hcs, hrest⟩
    refine bind_eq_ok.mpr ⟨(vs, rest), wholeDigits_eq_ok.mpr ⟨ds, hds, hvs, hcs, fun c hc => (hrest c hc).1⟩, ?_⟩
    refine bind_eq_ok.mpr ⟨(none, rest), fractionDigits_eq_none.mpr ⟨rfl, fun c hc => (hrest c hc).2.1⟩, ?_⟩
    exact bind_eq_ok.mpr ⟨(none, rest), exponentDigits_eq_none.mpr ⟨rfl, fun c hc => (hrest c hc).2.2⟩, rfl⟩

/-- A number below 2 ^ 64 is read from its digits alone: no sign, no fraction and no exponent. -/
theorem number_eq_natural {cs rest : List Char} {n : Nat} :
    number cs = .ok (.natural n, rest) ↔
      ∃ ds, Whole n ds ∧ n < UInt64.size ∧ cs = ds ++ rest ∧ NumeralEnds rest := by
  constructor
  · intro h
    obtain ⟨⟨⟨negative, vs, fraction, exponent⟩, rest₁⟩, hu, h⟩ := bind_eq_ok.mp h
    obtain ⟨v, hv, h⟩ := bind_eq_ok.mp h
    cases h
    obtain ⟨hnegative, hfraction, hexponent, rfl, hlt⟩ := value_eq_natural.mp hv
    cases hnegative
    cases hfraction
    cases hexponent
    rw [numeral.eq_def] at hu
    split at hu
    · cases (unsignedNumeral_eq_whole.mp hu).1
    · obtain ⟨-, ds, hds, -, hcs, hrest⟩ := unsignedNumeral_eq_whole.mp hu
      exact ⟨ds, hds, hlt, hcs, hrest⟩
  · rintro ⟨ds, hds, hlt, rfl, hrest⟩
    have hminus : numeral (ds ++ rest) = unsignedNumeral false (ds ++ rest) := by
      rw [numeral.eq_def]
      split
      · rename_i cs hcs
        obtain ⟨d, es, rfl⟩ := List.exists_cons_of_ne_nil hds.ne_nil
        have hd := hds.isDigit d (by simp)
        rw [(List.cons.inj hcs).1] at hd
        exact absurd hd (by decide)
      · rfl
    have hvalue : decimal (ds.map fun c => c.toNat - '0'.toNat) = n := by
      rw [decimal_map, ← hds.value]
    refine bind_eq_ok.mpr ⟨(⟨false, ds.map fun c => c.toNat - '0'.toNat, none, none⟩, rest), ?_, ?_⟩
    · rw [hminus, unsignedNumeral_eq_whole]
      exact ⟨rfl, ds, by rwa [hvalue], rfl, rfl, hrest⟩
    · refine bind_eq_ok.mpr ⟨.natural n, value_eq_natural.mpr ⟨rfl, rfl, rfl, hvalue.symm, hlt⟩, rfl⟩

theorem whole_toDigits (n : Nat) : Whole n (Nat.toDigits 10 n) where
  ne_nil := Nat.toDigits_ne_nil
  isDigit := fun _ => Nat.isDigit_of_mem_toDigits (by decide) (by decide)
  no_leading_zero := by
    induction n using Nat.strongRecOn with
    | ind n ih =>
        intro es h
        by_cases hn : n < 10
        · rw [Nat.toDigits_of_lt_base hn] at h
          exact (List.cons.inj h).2.symm
        · -- the digits of a tenth come first, and they start with a zero for no number but zero
          have hpos : 0 < n / 10 := by omega
          have hsplit := Nat.toDigits_append_toDigits (b := 10) (by decide) hpos (Nat.mod_lt n (by decide))
          rw [Nat.div_add_mod] at hsplit
          obtain ⟨c, cs, hcs⟩ := List.exists_cons_of_ne_nil (Nat.toDigits_ne_nil (n := n / 10) (b := 10))
          rw [← hsplit, hcs, List.cons_append] at h
          rw [(List.cons.inj h).1] at hcs
          rw [ih (n / 10) (by omega) cs hcs] at hcs
          have hvalue := Nat.ofDigitChars_toDigits (b := 10) (n := n / 10) (by decide) (by decide)
          rw [hcs] at hvalue
          have : Nat.ofDigitChars 10 ['0'] 0 = 0 := rfl
          omega
  value := (Nat.ofDigitChars_toDigits (by decide) (by decide)).symm

theorem numeralEnds_cons {c : Char} (h : c.isDigit = false ∧ c ≠ '.' ∧ c ≠ 'e' ∧ c ≠ 'E') (rest : List Char) :
    NumeralEnds (c :: rest) := by
  intro d hd
  cases Option.mem_def.mp hd
  exact h

theorem NumeralEnds.blanks {g rest : List Char} (hg : Blanks g) (h : NumeralEnds rest) : NumeralEnds (g ++ rest) := by
  cases g with
  | nil => exact h
  | cons c g =>
      refine numeralEnds_cons ?_ _
      rcases hg c (by simp) with rfl | rfl | rfl | rfl <;> decide

/-! ## Items in a row -/

/-- What stands before an item: blanks, with a comma among them unless the item is the first. -/
inductive Lead : Bool → List Char → Prop
  | first {g} : Blanks g → Lead true g
  | next {g g'} : Blanks g → Blanks g' → Lead false (g ++ ',' :: g')

/-- Items with commas between them and blanks around them. The flag tells whether no item stands before them. -/
inductive Items {α : Type} (Item : α → List Char → Prop) : Bool → List α → List Char → Prop
  | nil {first g} : Blanks g → Items Item first [] g
  | cons {first lead a cs as ds} : Lead first lead → Item a cs → Items Item false as ds →
      Items Item first (a :: as) (lead ++ cs ++ ds)

theorem Lead.blanks {first : Bool} {lead g : List Char} (h : Lead first lead) (hg : Blanks g) :
    Lead first (lead ++ g) := by
  cases h with
  | first h => exact .first (h.append hg)
  | next h h' =>
      rw [List.append_assoc, List.cons_append]
      exact .next h (h'.append hg)

theorem Lead.numeralEnds {first : Bool} {lead rest : List Char} (h : Lead first lead)
    (hrest : first = true → NumeralEnds rest) : NumeralEnds (lead ++ rest) := by
  cases h with
  | first h => exact (hrest rfl).blanks h
  | next h h' =>
      rw [List.append_assoc]
      exact (numeralEnds_cons (by decide) _).blanks h

theorem Items.numeralEnds {α : Type} {Item : α → List Char → Prop} {as : List α} {cs rest : List Char}
    (h : Items Item false as cs) (hrest : NumeralEnds rest) : NumeralEnds (cs ++ rest) := by
  cases h with
  | nil hg => exact hrest.blanks hg
  | cons hlead _ _ =>
      rw [List.append_assoc, List.append_assoc]
      exact hlead.numeralEnds nofun

end HexAsm.Json
