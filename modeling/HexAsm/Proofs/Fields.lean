import HexAsm.Proofs.Lemmas.Listing

/-!
# The parts of a word

The operation code, the slots and the payload are fields of bits that do not overlap: packing puts each part into its
own bits, and a word is packed from what its bits hold. A mask acts on each part by itself, so that masks one after the
other keep what both of them choose.
-/

namespace HexAsm

/-! ## Bits of a word -/

namespace Word

/-- The four bits at a position, counted from the left. -/
def nibble (w : Word) (k : Nat) : UInt8 := (w.raw >>> UInt32.ofNat (28 - 4 * k) &&& 0xF).toUInt8

theorem toNat_nibble (w : Word) (k : Nat) : (w.nibble k).toNat = w.raw.toNat >>> (28 - 4 * k) % 16 := by
  have hshift : (UInt32.ofNat (28 - 4 * k)).toNat % 32 = 28 - 4 * k := by
    simp only [UInt32.toNat_ofNat']
    omega
  have hlow (n : Nat) : n &&& 0xF = n % 16 := Nat.and_two_pow_sub_one_eq_mod n 4
  simp only [nibble, UInt32.toNat_toUInt8, UInt32.toNat_and, UInt32.toNat_shiftRight, hshift, UInt32.reduceToNat, hlow]
  omega

theorem code_eq_nibble (w : Word) : w.code = w.nibble 0 := by
  apply UInt8.toNat_inj.mp
  have := w.raw.toNat_lt
  simp only [toNat_nibble, code, UInt8.toNat_ofNat', Nat.shiftRight_eq_div_pow]
  omega

theorem slot_eq_nibble (w : Word) (s : Slot) : w.slot s = w.nibble s.position := by
  apply UInt8.toNat_inj.mp
  have hslot : (w.slot s).toNat = w.raw.toNat / s.weight % 16 := Nat.mod_eq_of_lt (by omega)
  rw [hslot, toNat_nibble, Nat.shiftRight_eq_div_pow]
  cases s <;> rfl

theorem nibbles_eq_bits (w : Word) : w.nibbles = (List.range 4).map w.nibble := by
  simp only [nibbles, code_eq_nibble, slot_eq_nibble]
  rfl

theorem payload_eq_bits (w : Word) : w.payload = (w.raw &&& 0xFFFF).toUInt16 := by
  have hlow (n : Nat) : n &&& 0xFFFF = n % 0x10000 := Nat.and_two_pow_sub_one_eq_mod n 16
  apply UInt16.toNat_inj.mp
  simp only [payload, UInt16.toNat_ofNat', UInt32.toNat_toUInt16, UInt32.toNat_and, UInt32.reduceToNat, hlow]

/-! ## Packing as shifts -/

/-- A number with the low four bits of a byte behind it. -/
def shiftIn (head : UInt32) (b : UInt8) : UInt32 := head <<< 4 ||| (b &&& 0xF).toUInt32

theorem toNat_shiftLeft_or {a b k : UInt32} (hk : k.toNat < 32) (ha : a.toNat <<< k.toNat < 0x100000000)
    (hb : b.toNat < 2 ^ k.toNat) : (a <<< k ||| b).toNat = a.toNat <<< k.toNat + b.toNat := by
  rw [UInt32.toNat_or, UInt32.toNat_shiftLeft, Nat.mod_eq_of_lt hk, Nat.mod_eq_of_lt ha]
  exact (Nat.shiftLeft_add_eq_or_of_lt hb _).symm

theorem toNat_shiftIn {head : UInt32} (b : UInt8) (h : head.toNat < 0x10000000) :
    (shiftIn head b).toNat = 16 * head.toNat + b.toNat % 16 := by
  have hlow : (b &&& 0xF).toUInt32.toNat = b.toNat % 16 := by
    simpa using Nat.and_two_pow_sub_one_eq_mod b.toNat 4
  rw [shiftIn, toNat_shiftLeft_or (by decide), hlow]
  · simp only [UInt32.reduceToNat, Nat.shiftLeft_eq]
    omega
  · simp only [UInt32.reduceToNat, Nat.shiftLeft_eq]
    omega
  · rw [hlow]
    exact Nat.mod_lt _ (by decide)

/-- Bytes are shifted in without loss as long as the word has room behind the head. -/
theorem toNat_foldl_shiftIn {bytes : List UInt8} {head : UInt32}
    (h : (head.toNat + 1) * 16 ^ bytes.length ≤ 0x100000000) :
    (bytes.foldl shiftIn head).toNat = bytes.foldl (fun n b => 16 * n + b.toNat % 16) head.toNat := by
  induction bytes generalizing head with
  | nil => rfl
  | cons b bytes ih =>
      have hpos : 0 < 16 ^ bytes.length := Nat.pow_pos (by decide)
      rw [List.length_cons, pow_succ', ← mul_assoc] at h
      have hhead : head.toNat < 0x10000000 := by
        have := Nat.le_trans (Nat.le_mul_of_pos_right _ hpos) h
        omega
      have hnext := toNat_shiftIn b hhead
      rw [List.foldl_cons, List.foldl_cons, ih, hnext]
      -- The byte takes one of the places behind the head.
      rw [hnext]
      exact Nat.le_trans (Nat.mul_le_mul_right _ (by omega)) h

theorem raw_pack (c : UInt8) (f : Slot → UInt8) (p : UInt16) :
    (pack c f p).raw = [c, f .n, f .r2, f .r1].foldl shiftIn 0 <<< 16 ||| p.toUInt32 := by
  have hhead : ([c, f .n, f .r2, f .r1].foldl shiftIn 0).toNat =
      [c, f .n, f .r2, f .r1].foldl (fun n b => 16 * n + b.toNat % 16) 0 := toNat_foldl_shiftIn (by simp)
  simp only [List.foldl_cons, List.foldl_nil] at hhead ⊢
  apply UInt32.toNat_inj.mp
  rw [toNat_pack, toNat_shiftLeft_or (by decide)]
  · simp only [hhead, UInt32.reduceToNat, Nat.shiftLeft_eq, UInt16.toNat_toUInt32]
    omega
  · simp only [hhead, UInt32.reduceToNat, Nat.shiftLeft_eq]
    omega
  · exact p.toNat_lt

theorem nibbles_pack (c : UInt8) (f : Slot → UInt8) (p : UInt16) :
    (pack c f p).nibbles = [c, f .n, f .r2, f .r1].map (· % 16) := by
  simp only [nibbles, List.map_cons, List.map_nil, List.cons.injEq, ← UInt8.toNat_inj, code_pack, slot_pack,
    UInt8.toNat_mod, UInt8.reduceToNat, true_and]

end Word

/-! ## Masks -/

namespace Mask

theorem has_all (s : Slot) : all.has s = true := by cases s <;> rfl

theorem has_inter (a b : Mask) (s : Slot) : (a.inter b).has s = (a.has s && b.has s) := by cases s <;> rfl

theorem inter_comm (a b : Mask) : a.inter b = b.inter a := by simp only [inter, Bool.and_comm]

theorem ofBits_bits (m : Mask) : ofBits m.bits = m := by
  have h : ∀ n r2 r1 p : Bool, ofBits (bits ⟨n, r2, r1, p⟩) = ⟨n, r2, r1, p⟩ := by decide
  exact h ..

theorem ofBits_and (x y : Nat) : ofBits (x &&& y) = (ofBits x).inter (ofBits y) := by
  simp only [ofBits, inter, Nat.testBit_and]

end Mask

namespace Word

theorem keep_keep (w : Word) (a b : Mask) : (w.keep a).keep b = w.keep (a.inter b) := by
  refine ext_parts ?_ (fun s => ?_) ?_
  · rw [code_keep, code_keep, code_keep]
  · rw [slot_keep, slot_keep, slot_keep, Mask.has_inter]
    cases a.has s <;> cases b.has s <;> rfl
  · rw [payload_keep, payload_keep, payload_keep, Mask.inter]
    cases a.payload <;> cases b.payload <;> rfl

theorem keep_all (w : Word) : w.keep .all = w := by
  refine ext_parts (code_keep ..) (fun s => ?_) ?_
  · rw [slot_keep, Mask.has_all, if_pos rfl]
  · rw [payload_keep]
    rfl

/-- Packing shifts the low four bits of each byte together and the payload behind them, and each part is read from its
own bits. A mask keeps the code, each of the other parts that it chooses, and nothing else; masks one after the other
keep what both choose, in either order. -/
theorem parts_of_pack_and_keep :
    (∀ (c : UInt8) (f : Slot → UInt8) (p : UInt16),
        (pack c f p).raw = [c, f .n, f .r2, f .r1].foldl shiftIn 0 <<< 16 ||| p.toUInt32 ∧
          (pack c f p).nibbles = [c, f .n, f .r2, f .r1].map (· % 16) ∧ (pack c f p).payload = p) ∧
      (∀ w : Word, pack w.code w.slot w.payload = w ∧
          w.nibbles = (List.range 4).map w.nibble ∧ w.code = w.nibble 0 ∧ (∀ s, w.slot s = w.nibble s.position) ∧
          w.payload = (w.raw &&& 0xFFFF).toUInt16) ∧
      ∀ (w : Word) (a b : Mask),
        (w.keep a).keep b = w.keep (a.inter b) ∧ (w.keep b).keep a = w.keep (a.inter b) ∧
          a.inter b = Mask.ofBits (a.bits &&& b.bits) ∧ w.keep .all = w ∧ (w.keep a).code = w.code ∧
          (∀ s, (w.keep a).slot s = if a.has s then w.slot s else 0) ∧
          (w.keep a).payload = if a.payload then w.payload else 0 := by
  refine ⟨fun c f p => ?_, fun w => ?_, fun w a b => ?_⟩
  · exact ⟨raw_pack c f p, nibbles_pack c f p, payload_pack c f p⟩
  · exact ⟨pack_parts w, nibbles_eq_bits w, code_eq_nibble w, slot_eq_nibble w, payload_eq_bits w⟩
  · have hswap : (w.keep b).keep a = w.keep (a.inter b) := by rw [keep_keep, Mask.inter_comm]
    have hbits : a.inter b = Mask.ofBits (a.bits &&& b.bits) := by
      rw [Mask.ofBits_and, Mask.ofBits_bits, Mask.ofBits_bits]
    exact ⟨keep_keep w a b, hswap, hbits, keep_all w, code_keep w a, slot_keep w a, payload_keep w a⟩

example : (Word.mk 0x1F1110F0).keep (Mask.ofBits 0b1001) = ⟨0x1F0010F0⟩ := by decide

end Word

end HexAsm
