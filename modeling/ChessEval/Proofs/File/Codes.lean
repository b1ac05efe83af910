import ChessEval.File.CompactFile
import Mathlib

/-! One-byte codes and the weights that they stand for: each direction undoes the other one. -/
namespace ChessEval

namespace WeightCode

variable {l : List Exception} {e : Exception} {b : Int8} {w : Int16} {k : Nat}

theorem byteOf_codeOf (b : Int8) : byteOf (codeOf b) = b := by
  have hb := b.le_toInt
  have h : ((codeOf b : Nat) : Int) - 128 = b.toInt := by
    unfold codeOf
    omega
  rw [byteOf, h, Int8.ofInt_toInt]

theorem codeOf_byteOf (h : k < 256) : codeOf (byteOf k) = k := by
  rw [codeOf, byteOf, Int8.toInt_ofInt_of_le (by omega) (by omega)]
  omega

/-- A byte stands for an exception's weight or for itself. -/
theorem decodeWith_cases (l : List Exception) (b : Int8) :
    (∃ e ∈ l, e.code = codeOf b ∧ decodeWith l b = e.weight) ∨ decodeWith l b = b.toInt16 := by
  unfold decodeWith
  cases hf : l.find? (·.code == codeOf b) with
  | none => exact .inr rfl
  | some e => exact .inl ⟨e, List.mem_of_find?_eq_some hf, by simpa using List.find?_some hf, rfl⟩

/-- Exceptions that can be told apart by their codes and by their weights, none of which is the
weight of a byte. -/
structure Proper (l : List Exception) : Prop where
  nodup_codes : (l.map (·.code)).Nodup
  nodup_weights : (l.map (·.weight)).Nodup
  code_lt : ∀ e ∈ l, e.code < 256
  weight_ne : ∀ e ∈ l, e.weight.toInt8.toInt16 ≠ e.weight

theorem proper_exceptionsOf (piece : Piece) (enemy : Bool) : Proper (exceptionsOf piece enemy) := by
  cases piece <;> cases enemy <;>
    exact ⟨by decide, by decide, by decide, by decide⟩

namespace Proper

theorem decodeWith_of_mem (h : Proper l) (he : e ∈ l) (hc : e.code = codeOf b) :
    decodeWith l b = e.weight := by
  unfold decodeWith
  cases hf : l.find? (·.code == codeOf b) with
  | none => exact absurd hc (by simpa using List.find?_eq_none.mp hf e he)
  | some f =>
    have hfc : f.code = codeOf b := by simpa using List.find?_some hf
    rw [List.inj_on_of_nodup_map h.nodup_codes (List.mem_of_find?_eq_some hf) he
      (hfc.trans hc.symm)]

/-- Each weight has at most one code, the one that is written for it. -/
theorem encodeWith?_eq_some_iff (h : Proper l) :
    encodeWith? l w = some b ↔ decodeWith l b = w := by
  unfold encodeWith?
  cases hf : l.find? (·.weight == w) with
  | some e =>
    have he := List.mem_of_find?_eq_some hf
    have hw : e.weight = w := by simpa using List.find?_some hf
    simp only [Option.some.injEq]
    constructor
    · rintro rfl
      rw [h.decodeWith_of_mem he (codeOf_byteOf (h.code_lt e he)).symm, hw]
    · intro hd
      obtain ⟨f, hfl, hc, hfw⟩ | hb := decodeWith_cases l b
      · have hef : e.weight = f.weight := by rw [hw, ← hd, hfw]
        rw [List.inj_on_of_nodup_map h.nodup_weights he hfl hef, hc, byteOf_codeOf]
      · -- no byte has the weight of an exception
        have hbw : b.toInt16 = e.weight := by rw [← hb, hd, hw]
        exact absurd (by rw [← hbw, Int8.toInt8_toInt16]) (h.weight_ne e he)
  | none =>
    have hn : ∀ e ∈ l, e.weight ≠ w := by simpa using hf
    simp only [Option.ite_none_right_eq_some, Option.some.injEq]
    constructor
    · rintro ⟨hc, rfl⟩
      exact hc.2
    · intro hd
      obtain ⟨f, hfl, -, hfw⟩ | hb := decodeWith_cases l b
      · exact absurd (hfw.symm.trans hd) (hn f hfl)
      · have hwb : w.toInt8 = b := by rw [← hd, hb, Int8.toInt8_toInt16]
        rw [hwb]
        exact ⟨⟨hb.symm.trans hd, hd⟩, rfl⟩

end Proper

end WeightCode

namespace WeightCodes

open WeightCode

variable {c : WeightCodes} {w : Vector (Vector Int16 64) 768}

/-- The code of a weight. -/
def code (c : WeightCodes) (k : Fin 6) (side : Fin 2) (n s : Fin 64) : Int8 :=
  (((c.get k).get side).get n).get s

/-- The weight of a feature. -/
def weight (w : Vector (Vector Int16 64) 768) (k : Fin 6) (side : Fin 2) (n s : Fin 64) : Int16 :=
  (w.get (feature k side s)).get n

theorem split_feature (k : Fin 6) (side : Fin 2) (s : Fin 64) :
    split (feature k side s) = (k, side, s) := by
  simp only [split, feature, Prod.mk.injEq, Fin.ext_iff]
  omega

theorem feature_split (i : Fin 768) : feature (split i).1 (split i).2.1 (split i).2.2 = i := by
  simp only [split, feature, Fin.ext_iff]
  omega

theorem proper_exceptions (k : Fin 6) (side : Fin 2) : Proper (exceptions k side) :=
  proper_exceptionsOf _ _

theorem weight_decode (c : WeightCodes) (k : Fin 6) (side : Fin 2) (n s : Fin 64) :
    weight c.decode k side n s = decodeWith (exceptions k side) (code c k side n s) := by
  simp [weight, decode, code, split_feature]

theorem code_encode (w : Vector (Vector Int16 64) 768) (k : Fin 6) (side : Fin 2) (n s : Fin 64) :
    code (encode w) k side n s =
      (encodeWith? (exceptions k side) (weight w k side n s)).getD 0 := by
  simp [encode, code, weight]

theorem ext_weight {v : Vector (Vector Int16 64) 768}
    (h : ∀ k side n s, weight v k side n s = weight w k side n s) : v = w := by
  apply Vector.ext
  intro i hi
  apply Vector.ext
  intro j hj
  have := h (split ⟨i, hi⟩).1 (split ⟨i, hi⟩).2.1 ⟨j, hj⟩ (split ⟨i, hi⟩).2.2
  rw [weight, weight, feature_split] at this
  exact this

theorem ext_code {d : WeightCodes} (h : ∀ k side n s, code c k side n s = code d k side n s) :
    c = d := by
  apply Vector.ext
  intro k hk
  apply Vector.ext
  intro side hside
  apply Vector.ext
  intro n hn
  apply Vector.ext
  intro s hs
  exact h ⟨k, hk⟩ ⟨side, hside⟩ ⟨n, hn⟩ ⟨s, hs⟩

theorem uncoded?_eq_none_iff :
    uncoded? w = none ↔
      ∀ k side n s, (encodeWith? (exceptions k side) (weight w k side n s)).isSome := by
  simp [uncoded?, weight, List.findSome?_eq_none_iff, Option.isSome_iff_ne_none]

/-- Weights that all have codes are encoded as the only codes that stand for them. -/
theorem encode_eq_iff : uncoded? w = none ∧ encode w = c ↔ c.decode = w := by
  have hiff (k side n s) := (proper_exceptions k side).encodeWith?_eq_some_iff
    (b := code c k side n s) (w := weight w k side n s)
  constructor
  · rintro ⟨hu, rfl⟩
    apply ext_weight
    intro k side n s
    obtain ⟨b, hb⟩ := Option.isSome_iff_exists.mp (uncoded?_eq_none_iff.mp hu k side n s)
    have hc : code (encode w) k side n s = b := by rw [code_encode, hb]; rfl
    rw [weight_decode]
    exact (hiff k side n s).mp (hc ▸ hb)
  · intro hd
    have hs (k side n s) : encodeWith? (exceptions k side) (weight w k side n s) =
        some (code c k side n s) := (hiff k side n s).mpr (by rw [← hd, weight_decode])
    constructor
    · exact uncoded?_eq_none_iff.mpr fun k side n s => by rw [hs]; rfl
    · apply ext_code
      intro k side n s
      rw [code_encode, hs]
      rfl

end WeightCodes

namespace SmallNetwork

variable {n : SmallNetwork}

/-- Numbers that all fit in bytes are written as the only bytes with their values. -/
theorem fitting_iff {v : Vector Int16 64} {c : Vector Int8 64} :
    (v.toList.find? fun x => x.toInt8.toInt16 ≠ x) = none ∧ v.map Int16.toInt8 = c ↔
      c.map Int8.toInt16 = v := by
  constructor
  · rintro ⟨hf, rfl⟩
    have hfit : ∀ x ∈ v, x.toInt8.toInt16 = x := by simpa using hf
    rw [Vector.map_map]
    exact (Vector.map_congr_left hfit).trans (Vector.map_id v)
  · rintro rfl
    have hid : Int16.toInt8 ∘ Int8.toInt16 = id := funext Int8.toInt8_toInt16
    simp [hid]

/-- The weights and biases have codes exactly if some codes stand for them, and then in one way. -/
theorem core_eq_ok_iff {core : WeightCodes × Vector Int8 64} :
    n.core = .ok core ↔
      core.1.decode = n.transformer.weights ∧ core.2.map Int8.toInt16 = n.transformer.biases := by
  refine Iff.trans ?_ (and_congr WeightCodes.encode_eq_iff fitting_iff)
  unfold SmallNetwork.core
  cases WeightCodes.uncoded? n.transformer.weights with
  | some v => simp
  | none =>
    cases n.transformer.biases.toList.find? fun v => v.toInt8.toInt16 ≠ v with
    | some v => simp
    | none => simp [Prod.ext_iff]

end SmallNetwork

end ChessEval
