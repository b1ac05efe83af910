import ChessEval.File.Layout
import Mathlib.Data.Nat.Bitwise

/-! Layouts whose two directions fit together: what is read is what was written and where. -/
namespace ChessEval.File

variable {α β : Type} {b c : ByteArray} {i j : Nat}

/-! Bytes by their place. -/

theorem byteAt_eq_getElem (h : i < b.size) : byteAt b i = b[i] := dif_pos h

theorem eq_of_byteAt (hs : b.size = c.size) (h : ∀ i < c.size, byteAt b i = byteAt c i) :
    b = c := by
  apply ByteArray.ext
  apply Array.ext hs
  intro i hb hc
  have hi := h i hc
  rwa [byteAt_eq_getElem hb, byteAt_eq_getElem hc] at hi

@[simp] theorem byteAt_push_size (b : ByteArray) (v : UInt8) : byteAt (b.push v) b.size = v := by
  rw [byteAt_eq_getElem (by simp)]
  exact Array.getElem_push_eq

theorem byteAt_push_of_lt (v : UInt8) (h : i < b.size) : byteAt (b.push v) i = byteAt b i := by
  rw [byteAt_eq_getElem (by simp; omega), byteAt_eq_getElem h]
  exact Array.getElem_push_lt h

namespace Layout

/-! Words by their bytes, the low one first. -/

def word16 (p : UInt8 × UInt8) : UInt16 := p.1.toUInt16 ||| (p.2.toUInt16 <<< 8)

def bytes16 (w : UInt16) : UInt8 × UInt8 := (w.toUInt8, (w >>> 8).toUInt8)

def word32 (p : UInt8 × UInt8 × UInt8 × UInt8) : UInt32 :=
  p.1.toUInt32 ||| (p.2.1.toUInt32 <<< 8) ||| (p.2.2.1.toUInt32 <<< 16) |||
    (p.2.2.2.toUInt32 <<< 24)

def bytes32 (w : UInt32) : UInt8 × UInt8 × UInt8 × UInt8 :=
  (w.toUInt8, (w >>> 8).toUInt8, (w >>> 16).toUInt8, (w >>> 24).toUInt8)

theorem or_shiftLeft_eq_add {x k : Nat} (hx : x < 2 ^ k) (y : Nat) :
    x ||| y <<< k = x + 2 ^ k * y := by
  rw [Nat.or_comm, Nat.shiftLeft_eq, Nat.mul_comm, ← Nat.two_pow_add_eq_or_of_lt hx, Nat.add_comm]

/-- A byte moved up by `k` bits keeps all its bits in a word of `n` bits. -/
theorem shiftLeft_mod_eq {n k : Nat} (x : UInt8) (hk : k + 8 ≤ n) :
    x.toNat <<< k % 2 ^ n = x.toNat <<< k := by
  apply Nat.mod_eq_of_lt
  calc x.toNat <<< k = x.toNat * 2 ^ k := Nat.shiftLeft_eq _ _
    _ < 2 ^ 8 * 2 ^ k := Nat.mul_lt_mul_of_pos_right x.toNat_lt (Nat.two_pow_pos k)
    _ = 2 ^ (k + 8) := by rw [Nat.pow_add, Nat.mul_comm]
    _ ≤ 2 ^ n := Nat.pow_le_pow_right Nat.two_pos hk

theorem toNat_word16 (p : UInt8 × UInt8) :
    (word16 p).toNat = p.1.toNat + 2 ^ 8 * p.2.toNat := by
  rw [word16, UInt16.toNat_or, UInt16.toNat_shiftLeft, UInt8.toNat_toUInt16, UInt8.toNat_toUInt16,
    ← or_shiftLeft_eq_add p.1.toNat_lt]
  exact congrArg _ (shiftLeft_mod_eq p.2 (by decide))

theorem toNat_word32 (p : UInt8 × UInt8 × UInt8 × UInt8) :
    (word32 p).toNat = p.1.toNat + 2 ^ 8 * p.2.1.toNat + 2 ^ 16 * p.2.2.1.toNat +
      2 ^ 24 * p.2.2.2.toNat := by
  obtain ⟨x, y, z, t⟩ := p
  have hx := x.toNat_lt
  have hy := y.toNat_lt
  have hz := z.toNat_lt
  simp only [word32, UInt32.toNat_or, UInt32.toNat_shiftLeft, UInt8.toNat_toUInt32]
  rw [← or_shiftLeft_eq_add (by omega), ← or_shiftLeft_eq_add (by omega), ← or_shiftLeft_eq_add hx]
  exact congrArg₂ _ (congrArg₂ _ (congrArg _ (shiftLeft_mod_eq y (by decide)))
    (shiftLeft_mod_eq z (by decide))) (shiftLeft_mod_eq t (by decide))

theorem word16_bytes16 (w : UInt16) : word16 (bytes16 w) = w := by
  have hw := w.toNat_lt
  apply UInt16.toNat_inj.mp
  simp only [toNat_word16, bytes16, UInt16.toNat_toUInt8, UInt16.toNat_shiftRight,
    Nat.shiftRight_eq_div_pow, UInt16.reduceToNat, Nat.reduceMod]
  omega

theorem word32_bytes32 (w : UInt32) : word32 (bytes32 w) = w := by
  have hw := w.toNat_lt
  apply UInt32.toNat_inj.mp
  simp only [toNat_word32, bytes32, UInt32.toNat_toUInt8, UInt32.toNat_shiftRight,
    Nat.shiftRight_eq_div_pow, UInt32.reduceToNat, Nat.reduceMod]
  omega

theorem bytes16_word16 (p : UInt8 × UInt8) : bytes16 (word16 p) = p := by
  obtain ⟨x, y⟩ := p
  have hx := x.toNat_lt
  have hy := y.toNat_lt
  simp only [bytes16, Prod.ext_iff, ← UInt8.toNat_inj, UInt16.toNat_toUInt8,
    UInt16.toNat_shiftRight, toNat_word16, Nat.shiftRight_eq_div_pow, UInt16.reduceToNat,
    Nat.reduceMod]
  omega

theorem bytes32_word32 (p : UInt8 × UInt8 × UInt8 × UInt8) : bytes32 (word32 p) = p := by
  obtain ⟨x, y, z, t⟩ := p
  have hx := x.toNat_lt
  have hy := y.toNat_lt
  have hz := z.toNat_lt
  have ht := t.toNat_lt
  simp only [bytes32, Prod.ext_iff, ← UInt8.toNat_inj, UInt32.toNat_toUInt8,
    UInt32.toNat_shiftRight, toNat_word32, Nat.shiftRight_eq_div_pow, UInt32.reduceToNat,
    Nat.reduceMod]
  omega

theorem size_pair (l : Layout α) (m : Layout β) : (l.pair m).size = l.size + m.size := rfl

theorem get_get_vector {n : Nat} (l : Layout α) (b : ByteArray) (i : Nat) (k : Fin n) :
    ((l.vector n).get b i).get k = l.get b (i + k * l.size) :=
  Vector.getElem_ofFn k.isLt

theorem size_uint32 : uint32.size = 4 := rfl

theorem uint32At_eq_iff {w : UInt32} :
    uint32At b i = w ↔
      (byteAt b i, byteAt b (i + 1), byteAt b (i + 2), byteAt b (i + 3)) = bytes32 w := by
  have hword : uint32At b i =
      word32 (byteAt b i, byteAt b (i + 1), byteAt b (i + 2), byteAt b (i + 3)) := rfl
  rw [hword]
  constructor
  · rintro rfl
    rw [bytes32_word32]
  · intro h
    rw [h, word32_bytes32]

/-- A value is written at a place of a byte string. -/
def At (l : Layout α) (b : ByteArray) (i : Nat) (v : α) : Prop :=
  i + l.size ≤ b.size ∧ l.get b i = v

theorem at_pair_iff {l : Layout α} {m : Layout β} {v : α} {w : β} :
    (l.pair m).At b i (v, w) ↔ l.At b i v ∧ m.At b (i + l.size) w := by
  simp only [At, pair, Prod.mk.injEq, Nat.add_assoc]
  constructor
  · rintro ⟨hs, hv, hw⟩
    exact ⟨⟨by omega, hv⟩, hs, hw⟩
  · rintro ⟨⟨-, hv⟩, hs, hw⟩
    exact ⟨hs, hv, hw⟩

/-- What a layout promises: `put` appends `size` bytes, and `get` gives a value exactly where it
finds the bytes that `put` writes for it. -/
structure Lawful (l : Layout α) : Prop where
  size_put : ∀ c v, (l.put c v).size = c.size + l.size
  byteAt_put_of_lt : ∀ {c v j}, j < c.size → byteAt (l.put c v) j = byteAt c j
  get_eq_iff : ∀ {b i v} c,
    l.get b i = v ↔ ∀ j < l.size, byteAt b (i + j) = byteAt (l.put c v) (c.size + j)

variable {l : Layout α} {m : Layout β}

namespace Lawful

theorem get_put (h : l.Lawful) (c : ByteArray) (v : α) : l.get (l.put c v) c.size = v :=
  (h.get_eq_iff c).mpr fun _ _ => rfl

/-- A value depends only on its own bytes. -/
theorem get_congr (h : l.Lawful) (hb : ∀ k < l.size, byteAt b (i + k) = byteAt c (j + k)) :
    l.get b i = l.get c j := by
  have hc := (h.get_eq_iff .empty).mp (Eq.refl (l.get c j))
  exact (h.get_eq_iff .empty).mpr fun k hk => (hb k hk).trans (hc k hk)

/-- A byte string is what is written for a value if the value is written at its start and nothing
follows. -/
theorem bytes_eq_iff (h : l.Lawful) {v : α} : l.bytes v = b ↔ l.At b 0 v ∧ b.size ≤ l.size := by
  have hs : (l.bytes v).size = l.size := (h.size_put .empty v).trans (Nat.zero_add _)
  constructor
  · rintro rfl
    exact ⟨⟨by omega, h.get_put .empty v⟩, hs.le⟩
  · rintro ⟨⟨hle, hg⟩, hge⟩
    apply eq_of_byteAt (by omega)
    intro i hi
    have := (h.get_eq_iff .empty).mp hg i (by omega)
    simpa [bytes] using this.symm

theorem pair (hl : l.Lawful) (hm : m.Lawful) : (l.pair m).Lawful where
  size_put c v := by
    simp only [Layout.pair, hm.size_put, hl.size_put, Nat.add_assoc]
  byteAt_put_of_lt {c v j} h := by
    have hj : j < (l.put c v.1).size := by rw [hl.size_put]; omega
    exact (hm.byteAt_put_of_lt hj).trans (hl.byteAt_put_of_lt h)
  get_eq_iff {b i v} c := by
    simp only [Layout.pair, Prod.ext_iff, hl.get_eq_iff c, hm.get_eq_iff (l.put c v.1), hl.size_put]
    constructor
    · rintro ⟨h1, h2⟩ j hj
      -- writing the second value leaves the bytes of the first one alone
      by_cases hjl : j < l.size
      · rw [hm.byteAt_put_of_lt (by rw [hl.size_put]; omega), h1 j hjl]
      · have h := h2 (j - l.size) (by omega)
        rwa [show i + l.size + (j - l.size) = i + j by omega,
          show c.size + l.size + (j - l.size) = c.size + j by omega] at h
    · intro h
      refine ⟨fun j hj => ?_, fun j hj => ?_⟩
      · rw [h j (by omega), hm.byteAt_put_of_lt (by rw [hl.size_put]; omega)]
      · rw [Nat.add_assoc, Nat.add_assoc, h (l.size + j) (by omega)]

theorem through {forth : α → β} {back : β → α} (h : l.Lawful) (hb : ∀ v, back (forth v) = v)
    (hf : ∀ w, forth (back w) = w) : (l.through forth back).Lawful where
  size_put c w := h.size_put c (back w)
  byteAt_put_of_lt := h.byteAt_put_of_lt
  get_eq_iff {b i w} c := by
    have hw : forth (l.get b i) = w ↔ l.get b i = back w :=
      ⟨fun hv => hv ▸ (hb _).symm, fun hv => hv ▸ hf w⟩
    exact hw.trans (h.get_eq_iff c)

end Lawful

/-- A vector is written as its first elements and then its last one. -/
theorem vector_succ (n : Nat) (l : Layout α) :
    l.vector (n + 1) =
      ((l.vector n).pair l).through (fun p => p.1.push p.2) (fun v => (v.pop, v.back)) := by
  unfold vector pair through
  congr 1
  · exact Nat.succ_mul n l.size
  · funext b i
    exact Vector.ofFn_succ
  · funext b v
    calc v.foldl l.put b = (v.pop.push v.back).foldl l.put b := by rw [Vector.push_pop_back]
      _ = l.put (v.pop.foldl l.put b) v.back := Vector.foldl_push

theorem lawful_vector_zero (l : Layout α) : (l.vector 0).Lawful where
  size_put c v := by simp [vector, Vector.eq_empty]
  byteAt_put_of_lt {c v j} _ := by simp [vector, Vector.eq_empty]
  get_eq_iff {b i v} c := by simp [vector, Vector.eq_empty]

theorem Lawful.vector (h : l.Lawful) (n : Nat) : (l.vector n).Lawful := by
  induction n with
  | zero => exact lawful_vector_zero l
  | succ n ih =>
    rw [vector_succ]
    exact (ih.pair h).through (fun p => by simp [Vector.back]) Vector.push_pop_back

/-! The layouts that files are made of. -/

theorem lawful_uint8 : uint8.Lawful where
  size_put c v := by simp [uint8]
  byteAt_put_of_lt {c v j} h := byteAt_push_of_lt v h
  get_eq_iff c := by simp [uint8]

theorem lawful_int8 : int8.Lawful :=
  lawful_uint8.through UInt8.toUInt8_toInt8 Int8.toInt8_toUInt8

theorem uint32_eq : uint32 =
    (uint8.pair (uint8.pair (uint8.pair uint8))).through word32 bytes32 := rfl

theorem lawful_uint32 : uint32.Lawful := by
  have h := lawful_uint8
  rw [uint32_eq]
  exact (h.pair (h.pair (h.pair h))).through bytes32_word32 word32_bytes32

theorem int16_eq : int16 =
    ((uint8.pair uint8).through word16 bytes16).through UInt16.toInt16 Int16.toUInt16 := rfl

theorem lawful_int16 : int16.Lawful := by
  rw [int16_eq]
  exact ((lawful_uint8.pair lawful_uint8).through bytes16_word16 word16_bytes16).through
    UInt16.toUInt16_toInt16 Int16.toInt16_toUInt16

theorem lawful_int32 : int32.Lawful :=
  lawful_uint32.through UInt32.toUInt32_toInt32 Int32.toInt32_toUInt32

end Layout

end ChessEval.File
