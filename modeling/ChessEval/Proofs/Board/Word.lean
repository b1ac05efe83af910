import ChessEval.Board.Attack
import Mathlib.Data.Nat.Find

/-! The bits of words: subtraction of one bit, the lowest bit, reversals. -/
namespace ChessEval.Word

/-- Whether a word has its bit `i` set. -/
def bit (w : UInt64) (i : Nat) : Bool := w.toBitVec.getLsbD i

variable {v w mask : UInt64} {i k : Nat} {s t : Square}

theorem eq_of_bit (h : ∀ i, i < 64 → bit v i = bit w i) : v = w := by
  apply UInt64.toBitVec_inj.mp
  exact BitVec.eq_of_getLsbD_eq h

@[simp] theorem bit_zero : bit 0 i = false := by simp [bit]

@[simp] theorem bit_and : bit (v &&& w) i = (bit v i && bit w i) := by simp [bit]

@[simp] theorem bit_or : bit (v ||| w) i = (bit v i || bit w i) := by simp [bit]

@[simp] theorem bit_xor : bit (v ^^^ w) i = (bit v i ^^ bit w i) := by simp [bit]

theorem bit_not (h : i < 64) : bit (~~~w) i = !bit w i := by simp [bit, h]

theorem exists_bit (h : w ≠ 0) : ∃ i, i < 64 ∧ bit w i = true := by
  by_contra hn
  apply h
  apply eq_of_bit
  intro i hi
  cases hb : bit w i with
  | false => simp
  | true => exact (hn ⟨i, hi, hb⟩).elim

theorem bit_shiftRight (w k : UInt64) (hk : k.toNat < 64) (i : Nat) :
    bit (w >>> k) i = bit w (i + k.toNat) := by
  have hm : (k.toBitVec % 64).toNat = k.toNat := by
    rw [BitVec.toNat_umod]
    exact Nat.mod_eq_of_lt hk
  rw [bit, UInt64.toBitVec_shiftRight, BitVec.ushiftRight_eq', hm, BitVec.getLsbD_ushiftRight,
    Nat.add_comm, bit]

theorem bit_shiftLeft (w k : UInt64) (hk : k.toNat < 64) (hi : i < 64) :
    bit (w <<< k) i = (decide (k.toNat ≤ i) && bit w (i - k.toNat)) := by
  have hm : (k.toBitVec % 64).toNat = k.toNat := by
    rw [BitVec.toNat_umod]
    exact Nat.mod_eq_of_lt hk
  rw [bit, UInt64.toBitVec_shiftLeft, BitVec.shiftLeft_eq', hm, BitVec.getLsbD_shiftLeft, bit]
  by_cases h : i < k.toNat
  · have hle : ¬ k.toNat ≤ i := by omega
    simp [h, hle]
  · have hle : k.toNat ≤ i := by omega
    simp [hi, h, hle]

theorem bit_ofNat (n : Nat) (hi : i < 64) : bit (UInt64.ofNat n) i = n.testBit i := by
  rw [bit, UInt64.toBitVec_ofNat', BitVec.getLsbD_ofNat, decide_eq_true hi, Bool.true_and]

theorem testBit_toNat (w : UInt64) (i : Nat) : w.toNat.testBit i = bit w i :=
  BitVec.testBit_toNat w.toBitVec

theorem square_bit_toBitVec (s : Square) : s.bit.toBitVec = BitVec.twoPow 64 s := by
  unfold Square.bit
  rw [UInt64.toBitVec_shiftLeft, UInt64.toBitVec_ofNat', BitVec.shiftLeft_eq', BitVec.twoPow]
  simp [Nat.mod_eq_of_lt s.isLt]

@[simp] theorem bit_square (s : Square) : bit s.bit i = decide (i = s) := by
  have := s.isLt
  simp only [bit, square_bit_toBitVec, BitVec.getLsbD_twoPow]
  by_cases h : i = s <;> simp [h]
  omega

/-- No bit from `k` up to `i` is set. -/
def Clear (w : UInt64) (k i : Nat) : Prop := ∀ j, k ≤ j → j < i → bit w j = false

theorem clear_self : Clear w k k := fun j _ _ => by omega

theorem clear_succ (h : k ≤ i) : Clear w k (i + 1) ↔ Clear w k i ∧ bit w i = false := by
  constructor
  · intro hc
    exact ⟨fun j hj hji => hc j hj (by omega), hc i h (by omega)⟩
  · rintro ⟨hc, hi⟩ j hj hji
    rcases Nat.lt_succ_iff_lt_or_eq.mp hji with hji | rfl
    · exact hc j hj hji
    · exact hi

/-- A bit added to the complement carries past the clear bits above it. -/
theorem carry_complement (hi : i ≤ 64) (hk : k < 64) :
    BitVec.carry i (~~~w.toBitVec) (BitVec.twoPow 64 k) false = true ↔ k < i ∧ Clear w k i := by
  induction i with
  | zero => simp
  | succ i ih =>
    have ih := ih (by omega)
    have hw : (~~~w.toBitVec).getLsbD i = !bit w i := bit_not (w := w) (by omega)
    rw [BitVec.carry_succ, BitVec.getLsbD_twoPow, hw]
    rcases Nat.lt_trichotomy k i with hki | rfl | hki
    · rw [clear_succ (by omega)]
      have : k ≠ i := by omega
      cases hb : bit w i <;> simp_all [Bool.atLeastTwo]
      omega
    · rw [clear_succ (by omega)]
      have hc : Clear w k k := clear_self
      cases hb : bit w k <;> simp_all [Bool.atLeastTwo]
    · have hne : k ≠ i := by omega
      have hcarry : BitVec.carry i (~~~w.toBitVec) (BitVec.twoPow 64 k) false = false :=
        Bool.eq_false_iff.mpr fun h => by have := (ih.mp h).1; omega
      have hlt : ¬ k < i + 1 := by omega
      simp [Bool.atLeastTwo, hcarry, hne, hlt]

/-- Subtracting one bit changes the bits from there up to the first set one, and no others. -/
theorem bit_sub_square (hi : i < 64) :
    bit (w - s.bit) i = bit w i ↔ ¬ (s.val ≤ i ∧ Clear w s i) := by
  have hw : (~~~w.toBitVec).getLsbD i = !bit w i := bit_not (w := w) hi
  have hc := carry_complement (w := w) (i := i) (k := s) (by omega) s.isLt
  have hsub : w.toBitVec - BitVec.twoPow 64 s = ~~~(~~~w.toBitVec + BitVec.twoPow 64 s) := by
    rw [BitVec.not_add_eq_not_neg, BitVec.not_not]
  have hl : bit (w - s.bit) i = !((!bit w i) ^^ (decide (s.val = i) ^^
      BitVec.carry i (~~~w.toBitVec) (BitVec.twoPow 64 s) false)) := by
    rw [bit, UInt64.toBitVec_sub, square_bit_toBitVec, hsub, BitVec.getLsbD_not,
      BitVec.getLsbD_add hi, hw, BitVec.getLsbD_twoPow]
    simp [hi]
  rw [hl]
  by_cases he : s.val = i
  · subst he
    have : ¬ BitVec.carry s (~~~w.toBitVec) (BitVec.twoPow 64 s) false = true := by
      rw [hc]
      omega
    simp_all [clear_self]
  · have hle : s.val ≤ i ↔ s.val < i := by omega
    rw [hle, ← hc]
    cases bit w i <;> cases BitVec.carry i (~~~w.toBitVec) (BitVec.twoPow 64 s) false <;> simp [he]

theorem bit_neg (hi : i < 64) : bit (-w) i = bit w i ↔ Clear w 0 i := by
  have hn : (-w).toBitVec = -w.toBitVec := rfl
  rw [bit, hn, BitVec.getLsbD_neg]
  simp only [hi, decide_true, Bool.true_and]
  constructor
  · intro h j _ hji
    cases hb : bit w j with
    | false => rfl
    | true =>
      have hex : ∃ j < i, w.toBitVec.getLsbD j = true := ⟨j, hji, hb⟩
      simp [bit, hex] at h
  · intro h
    have hex : ¬ ∃ j < i, w.toBitVec.getLsbD j = true := by
      rintro ⟨j, hji, hb⟩
      have := h j (Nat.zero_le _) hji
      simp_all [bit]
    simp [bit, hex]

/-- The lowest set bit, alone. -/
theorem and_neg_eq (hs : bit w s = true) (hc : Clear w 0 s) : w &&& -w = s.bit := by
  apply eq_of_bit
  intro i hi
  rw [bit_and, bit_square]
  have hn := bit_neg (w := w) hi
  rcases Nat.lt_trichotomy i s with his | his | his
  · simp [hc i (Nat.zero_le _) his, Nat.ne_of_lt his]
  · subst his
    simp_all
  · have : ¬ Clear w 0 i := fun h => by simp [h s (Nat.zero_le _) his] at hs
    have hne : i ≠ s.val := by omega
    cases hb : bit w i <;> cases hb' : bit (-w) i <;> simp_all

theorem log2_square (s : Square) : Fin.ofNat 64 s.bit.log2.toNat = s := by
  revert s
  decide +kernel

theorem lowest_eq (hs : bit w s = true) (hc : Clear w 0 s) : Bitboard.lowest w = s := by
  rw [Bitboard.lowest, and_neg_eq hs hc, log2_square]

theorem exists_lowest (h : w ≠ 0) : ∃ s : Square, bit w s = true ∧ Clear w 0 s := by
  classical
  have hex := exists_bit h
  refine ⟨⟨Nat.find hex, (Nat.find_spec hex).1⟩, (Nat.find_spec hex).2, ?_⟩
  intro j _ hj
  have hmin := Nat.find_min hex hj
  have hlt : j < 64 := Nat.lt_trans hj (Nat.find_spec hex).1
  simpa [hlt] using hmin

theorem lowest_spec (h : w ≠ 0) :
    bit w (Bitboard.lowest w) = true ∧ Clear w 0 (Bitboard.lowest w) := by
  obtain ⟨s, hs, hc⟩ := exists_lowest h
  rw [lowest_eq hs hc]
  exact ⟨hs, hc⟩

/-- Clearing the lowest set bit keeps the others. -/
theorem bit_and_pred (h : w ≠ 0) (hi : i < 64) :
    bit (w &&& (w - 1)) i = (bit w i && decide (i ≠ Bitboard.lowest w)) := by
  obtain ⟨hs, hc⟩ := lowest_spec h
  have hone : (1 : UInt64) = Square.bit ⟨0, by decide⟩ := rfl
  have hsub := bit_sub_square (w := w) (s := ⟨0, by decide⟩) hi
  rw [← hone] at hsub
  rw [bit_and]
  generalize Bitboard.lowest w = s at hs hc
  rcases Nat.lt_trichotomy i s with his | rfl | his
  · simp [hc i (Nat.zero_le _) his]
  · have : bit (w - 1) s ≠ bit w s := fun he => (hsub.mp he) ⟨Nat.zero_le _, hc⟩
    cases hb : bit (w - 1) s <;> simp_all
  · have hn : ¬ Clear w 0 i := fun h => by simp [h s (Nat.zero_le _) his] at hs
    have he : bit (w - 1) i = bit w i := hsub.mpr (fun h => hn h.2)
    have hne : i ≠ s := Nat.ne_of_gt his
    simp [he, hne]

/-- Where a bit comes from when fields of `k` bits change places, `mask` marking the lower ones. -/
def partner (k : Nat) (mask : UInt64) (i : Nat) : Nat := if bit mask i then i + k else i - k

/-- The mask marks the lower field of each pair. -/
def Paired (k : Nat) (mask : UInt64) : Prop :=
  ∀ i < 64, partner k mask i < 64 ∧
    if bit mask i then k ≤ i → bit mask (i - k) = false else k ≤ i ∧ bit mask (i - k) = true

instance (k : Nat) (mask : UInt64) : Decidable (Paired k mask) :=
  inferInstanceAs (Decidable (∀ i < 64, _ ∧ _))

theorem bit_swapFields (hk : k < 64) (hm : Paired k mask) (hi : i < 64) :
    bit (Bitboard.swapFields (UInt64.ofNat k) mask w) i = bit w (partner k mask i) := by
  have hk' : (UInt64.ofNat k).toNat = k := by
    rw [UInt64.toNat_ofNat', Nat.mod_eq_of_lt]
    omega
  have hlt : (UInt64.ofNat k).toNat < 64 := by omega
  obtain ⟨_, hm⟩ := hm i hi
  rw [Bitboard.swapFields, bit_or, bit_and, bit_shiftRight _ _ hlt, bit_shiftLeft _ _ hlt hi,
    bit_and, hk', partner]
  cases hb : bit mask i with
  | true =>
    simp only [hb, if_true] at hm ⊢
    by_cases hki : k ≤ i
    · simp [hm hki]
    · simp [hki]
  | false =>
    simp only [hb, Bool.false_eq_true, if_false] at hm ⊢
    simp [hm.1, hm.2]

/-- The masks of `swapBits`. -/
theorem paired_bits : Paired 1 0x5555555555555555 ∧ Paired 2 0x3333333333333333 ∧
    Paired 4 0x0F0F0F0F0F0F0F0F := by
  decide +kernel

/-- The masks of `swapBytes`. -/
theorem paired_bytes : Paired 8 0x00FF00FF00FF00FF ∧ Paired 16 0x0000FFFF0000FFFF ∧
    Paired 32 0x00000000FFFFFFFF := by
  decide +kernel

theorem bit_swapBits (w : UInt64) (s : Square) :
    bit (Bitboard.swapBits w) s = bit w s.flipHorizontal := by
  have hs := s.isLt
  obtain ⟨hp1, hp2, hp4⟩ := paired_bits
  have hlt := (hp4 s hs).1
  have hlt' := (hp2 _ hlt).1
  have h := bit_swapFields (w := w) (by decide) hp1 hlt'
  rw [← bit_swapFields (by decide) hp2 hlt, ← bit_swapFields (by decide) hp4 hs] at h
  refine h.trans (congrArg (bit w) ?_)
  clear h hlt' hlt hs hp1 hp2 hp4
  revert s
  decide +kernel

theorem bit_swapBytes (w : UInt64) (s : Square) :
    bit (Bitboard.swapBytes w) s = bit w s.flipVertical := by
  have hs := s.isLt
  obtain ⟨hp8, hp16, hp32⟩ := paired_bytes
  have hlt := (hp32 s hs).1
  have hlt' := (hp16 _ hlt).1
  have h := bit_swapFields (w := w) (by decide) hp8 hlt'
  rw [← bit_swapFields (by decide) hp16 hlt, ← bit_swapFields (by decide) hp32 hs] at h
  refine h.trans (congrArg (bit w) ?_)
  clear h hlt' hlt hs hp8 hp16 hp32
  revert s
  decide +kernel

end ChessEval.Word
