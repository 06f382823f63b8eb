import HexAsm.Proofs.Lemmas.Blank
import HexAsm.Proofs.Lemmas.Reading
import HexAsm.Text.Hex
import Mathlib.Data.List.Induction
import Mathlib.Data.Nat.Digits.Defs

/-!
# Hexadecimal numbers

A digit stands for its place in one of the two alphabets, and a sequence of digits for a number to the base sixteen.
The digits that are written for a number read back as it, as far as the width allows.
-/

namespace HexAsm.Hex

/-! ## Digits -/

/-- The character is the digit of the value, in upper or lower case. -/
def Stands (c : Char) (v : Nat) : Prop :=
  "0123456789ABCDEF".toList[v]? = some c ∨ "0123456789abcdef".toList[v]? = some c

instance (c : Char) (v : Nat) : Decidable (Stands c v) :=
  inferInstanceAs (Decidable ("0123456789ABCDEF".toList[v]? = some c ∨ "0123456789abcdef".toList[v]? = some c))

theorem Stands.lt {c : Char} {v : Nat} (h : Stands c v) : v < 16 := by
  rcases h with h | h
  · exact (List.getElem?_eq_some_iff.mp h).1
  · exact (List.getElem?_eq_some_iff.mp h).1

/-- What holds of the digits of each alphabet holds of every digit. -/
theorem Stands.of_all {p : Char → Nat → Bool} {c : Char} {v : Nat} (h : Stands c v)
    (all : ∀ n < 16, "0123456789ABCDEF".toList[n]?.all (p · n) = true ∧
      "0123456789abcdef".toList[n]?.all (p · n) = true) : p c v = true := by
  obtain ⟨hupper, hlower⟩ := all v h.lt
  rcases h with h | h
  · rw [h] at hupper
    exact hupper
  · rw [h] at hlower
    exact hlower

theorem digit?_of_stands {c : Char} {v : Nat} (h : Stands c v) : digit? c = some v :=
  beq_iff_eq.mp (h.of_all (p := fun c v => digit? c == some v) (by decide))

/-- The digits from `a` to `b` stand for consecutive values. -/
theorem stands_of_between {a b c : Char} {v : Nat} (h : a ≤ c ∧ c ≤ b)
    (all : ∀ k < b.toNat - a.toNat + 1, Stands (Char.ofNat (a.toNat + k)) (k + v)) :
    Stands c (c.toNat - a.toNat + v) := by
  have h₁ : a.toNat ≤ c.toNat := h.1
  have h₂ : c.toNat ≤ b.toNat := h.2
  have hs := all (c.toNat - a.toNat) (by omega)
  rwa [Nat.add_sub_cancel' h₁, Char.ofNat_toNat] at hs

theorem stands_of_digit? {c : Char} {v : Nat} (h : digit? c = some v) : Stands c v := by
  unfold digit? at h
  split at h
  · cases h
    exact stands_of_between (v := 0) ‹_› (by decide)
  · split at h
    · cases h
      exact stands_of_between ‹_› (by decide)
    · split at h
      · cases h
        exact stands_of_between ‹_› (by decide)
      · cases h

theorem digit?_eq_some {c : Char} {v : Nat} : digit? c = some v ↔ Stands c v :=
  ⟨stands_of_digit?, digit?_of_stands⟩

theorem digit_of_stands {c : Char} {v : Nat} (h : Stands c v) : digit v = c.toUpper :=
  beq_iff_eq.mp (h.of_all (p := fun c v => digit v == c.toUpper) (by decide))

theorem Stands.isAlphanum {c : Char} {v : Nat} (h : Stands c v) : c.isAlphanum = true :=
  h.of_all (p := fun c _ => c.isAlphanum) (by decide)

/-! ## Numbers -/

theorem number_eq_ofDigits (ds : List Nat) : number ds = Nat.ofDigits 16 ds.reverse := by
  rw [number, Nat.ofDigits_eq_foldr, List.foldr_reverse]
  congr 1
  funext v d
  simp only [Nat.cast_id]
  omega

theorem number?_eq_some {cs : List Char} {n : Nat} :
    number? cs = some n ↔ ∃ ds, List.Forall₂ Stands cs ds ∧ n = Nat.ofDigits 16 ds.reverse := by
  simp only [number?, Option.map_eq_some_iff, mapM_eq_some, digit?_eq_some, number_eq_ofDigits,
    @eq_comm _ (Nat.ofDigits 16 _)]

theorem ofDigits_lt {cs : List Char} {ds : List Nat} (h : List.Forall₂ Stands cs ds) :
    Nat.ofDigits 16 ds.reverse < 16 ^ cs.length := by
  have hlt : ∀ d ∈ ds.reverse, d < 16 := by
    intro d hd
    obtain ⟨c, _, hc⟩ := exists_right_of_forall₂ h.flip (List.mem_reverse.mp hd)
    exact Stands.lt hc
  have := Nat.ofDigits_lt_base_pow_length (by decide) hlt
  rwa [List.length_reverse, ← h.length_eq] at this

theorem number?_lt {cs : List Char} {n : Nat} (h : number? cs = some n) : n < 16 ^ cs.length := by
  obtain ⟨ds, hds, rfl⟩ := number?_eq_some.mp h
  exact ofDigits_lt hds

theorem number?_zeros (zeros : Nat) (cs : List Char) : number? (List.replicate zeros '0' ++ cs) = number? cs := by
  induction zeros with
  | zero => rfl
  | succ zeros ih =>
      have hzero : digit? '0' = some 0 := by decide
      rw [← ih, List.replicate_succ, List.cons_append, number?, List.mapM_cons, hzero, number?]
      cases (List.replicate zeros '0' ++ cs).mapM digit? <;> rfl

theorem number?_concat (cs : List Char) (c : Char) :
    number? (cs ++ [c]) = (number? cs).bind fun n => (digit? c).map fun d => 16 * n + d := by
  simp only [number?, List.mapM_append, List.mapM_cons, List.mapM_nil]
  cases cs.mapM digit? with
  | none => rfl
  | some ds =>
      cases digit? c with
      | none => rfl
      | some d => simp [number]

/-- The digits of a number read back as the number, as far as the width allows. -/
theorem number?_digits (width n : Nat) : number? (digits width n) = some (n % 16 ^ width) := by
  induction width generalizing n with
  | zero => simp [digits, number?, number, Nat.mod_one]
  | succ width ih =>
      have hd : digit? (digit (n % 16)) = some (n % 16) := digit?_digit (Nat.mod_lt _ (by decide))
      rw [digits, number?_concat, ih, hd, pow_succ', Nat.mod_mul]
      simp [Nat.add_comm]

/-- A number is written as the digits that it was read from, in upper case. -/
theorem digits_of_number? {cs : List Char} {n : Nat} (h : number? cs = some n) :
    digits cs.length n = cs.map Char.toUpper := by
  induction cs using List.reverseRecOn generalizing n with
  | nil => rfl
  | append_singleton cs c ih =>
      rw [number?_concat] at h
      obtain ⟨m, hm, hlast⟩ := Option.bind_eq_some_iff.mp h
      obtain ⟨d, hd, rfl⟩ := Option.map_eq_some_iff.mp hlast
      have hstands := digit?_eq_some.mp hd
      have hlt := hstands.lt
      have hdiv : (16 * m + d) / 16 = m := by omega
      have hmod : (16 * m + d) % 16 = d := by omega
      rw [List.length_append, List.length_singleton, digits, hdiv, hmod, ih hm, digit_of_stands hstands, List.map_append]
      rfl

/-! ## Written digits -/

theorem stands_of_mem_alphabet {c : Char} (h : c ∈ alphabet) : ∃ v, Stands c v := by
  obtain ⟨v, hv⟩ := List.mem_iff_getElem?.mp h
  exact ⟨v, .inl hv⟩

theorem toUpper_of_mem_alphabet {c : Char} (h : c ∈ alphabet) : c.toUpper = c := by
  have hmap : alphabet.map Char.toUpper = alphabet := by decide
  obtain ⟨v, hv⟩ := List.mem_iff_getElem?.mp h
  have hget := congrArg (·[v]?) hmap
  simpa [hv] using hget

theorem digit_mem (n : Nat) : digit n ∈ alphabet := by
  rw [digit, List.getD_eq_getElem?_getD]
  cases h : alphabet[n]? with
  | none => decide
  | some c => exact List.mem_of_getElem? h

theorem stands_digit (n : Nat) : ∃ v, Stands (digit n) v := stands_of_mem_alphabet (digit_mem n)

theorem mem_alphabet_of_mem_digits {width n : Nat} {c : Char} (h : c ∈ digits width n) : c ∈ alphabet := by
  induction width generalizing n with
  | zero => simp [digits] at h
  | succ width ih =>
      rcases List.mem_append.mp h with h | h
      · exact ih h
      · rw [List.mem_singleton.mp h]
        exact digit_mem _

theorem stands_of_mem_digits {width n : Nat} {c : Char} (h : c ∈ digits width n) : ∃ v, Stands c v :=
  stands_of_mem_alphabet (mem_alphabet_of_mem_digits h)

end HexAsm.Hex
