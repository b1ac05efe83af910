import ChessEval.Proofs.Board.Word
import Mathlib.Data.List.Sort

/-! Bitboards as sets of squares: what each operation does to membership, and the listing in
ascending order. -/
namespace ChessEval

namespace Square

@[simp] theorem flipVertical_flipVertical (s : Square) : s.flipVertical.flipVertical = s := by
  revert s
  decide +kernel

@[simp] theorem flipHorizontal_flipHorizontal (s : Square) :
    s.flipHorizontal.flipHorizontal = s := by
  revert s
  decide +kernel

end Square

namespace Bitboard

variable {a b : Bitboard} {s t : Square} {l : List Square}

theorem mem_iff : s ∈ b ↔ Word.bit b.bits s = true := by
  change (b.bits &&& s.bit != 0) = true ↔ _
  rw [bne_iff_ne]
  constructor
  · intro h
    obtain ⟨i, _, hi⟩ := Word.exists_bit h
    rw [Word.bit_and, Word.bit_square, Bool.and_eq_true, decide_eq_true_eq] at hi
    rw [← hi.2]
    exact hi.1
  · intro h h0
    have hb : Word.bit (b.bits &&& s.bit) s = true := by simp [h]
    simp [h0] at hb

theorem ext (h : ∀ s, s ∈ a ↔ s ∈ b) : a = b := by
  have hw : a.bits = b.bits := by
    apply Word.eq_of_bit
    intro i hi
    have := h ⟨i, hi⟩
    rw [mem_iff, mem_iff] at this
    exact Bool.eq_iff_iff.mpr this
  cases a
  cases b
  cases hw
  rfl

@[simp] theorem not_mem_empty (s : Square) : s ∉ empty := by
  simp [mem_iff, empty]

@[simp] theorem mem_single : s ∈ single t ↔ s = t := by
  simp [mem_iff, single, Fin.ext_iff]

@[simp] theorem mem_or : s ∈ a ||| b ↔ s ∈ a ∨ s ∈ b := by
  rw [mem_iff, mem_iff, mem_iff]
  change Word.bit (a.bits ||| b.bits) s = true ↔ _
  simp

@[simp] theorem mem_and : s ∈ a &&& b ↔ s ∈ a ∧ s ∈ b := by
  rw [mem_iff, mem_iff, mem_iff]
  change Word.bit (a.bits &&& b.bits) s = true ↔ _
  simp

@[simp] theorem mem_sdiff : s ∈ a \ b ↔ s ∈ a ∧ s ∉ b := by
  rw [mem_iff, mem_iff, mem_iff]
  change Word.bit (a.bits &&& ~~~b.bits) s = true ↔ _
  simp [Word.bit_not s.isLt]

@[simp] theorem mem_insert : s ∈ b.insert t ↔ s = t ∨ s ∈ b := by
  simp [insert, or_comm]

@[simp] theorem mem_erase : s ∈ b.erase t ↔ s ≠ t ∧ s ∈ b := by
  simp [erase, and_comm]

theorem mem_foldl_insert : s ∈ l.foldl insert b ↔ s ∈ l ∨ s ∈ b := by
  induction l generalizing b with
  | nil => simp
  | cons t l ih =>
    rw [List.foldl_cons, ih, mem_insert, List.mem_cons]
    tauto

@[simp] theorem mem_ofList : s ∈ ofList l ↔ s ∈ l := by
  simp [ofList, mem_foldl_insert]

@[simp] theorem mem_flipVertical : s ∈ b.flipVertical ↔ s.flipVertical ∈ b := by
  rw [mem_iff, mem_iff, flipVertical, Word.bit_swapBytes]

@[simp] theorem mem_flipHorizontal : s ∈ b.flipHorizontal ↔ s.flipHorizontal ∈ b := by
  rw [mem_iff, mem_iff, flipHorizontal, Word.bit_swapBits]

@[simp] theorem mem_below : s ∈ below t ↔ s < t := by
  have hc : Word.Clear t.bit 0 s ↔ s.val ≤ t.val := by
    constructor
    · intro h
      by_contra hn
      simpa using h t (Nat.zero_le _) (by omega)
    · intro h j _ hj
      simp
      omega
  have hsub := Word.bit_sub_square (w := t.bit) (s := ⟨0, by decide⟩) s.isLt
  rw [hc, Word.bit_square] at hsub
  change _ = decide _ ↔ _ at hsub
  rw [mem_iff, Fin.lt_def]
  change Word.bit (t.bit - Square.bit ⟨0, by decide⟩) s = true ↔ _
  cases hb : Word.bit (t.bit - Square.bit ⟨0, by decide⟩) s <;> simp_all <;> omega

theorem isEmpty_iff : b.isEmpty = true ↔ ∀ s, s ∉ b := by
  constructor
  · intro h s hs
    have h0 : b.bits = 0 := by simpa [isEmpty] using h
    simp [mem_iff, h0] at hs
  · intro h
    have he : b = empty := ext fun s => by simp [h s]
    simp [isEmpty, he, empty]

/-- The listing of a word without bits below `k`, given steps enough for the rest. -/
theorem mem_takeLowest {n k : Nat} {w : UInt64} (hc : Word.Clear w 0 k) (hn : 64 ≤ n + k) :
    s ∈ takeLowest n w ↔ Word.bit w s = true := by
  induction n generalizing k w with
  | zero =>
    have := hc s (Nat.zero_le _) (by omega)
    simp [takeLowest, this]
  | succ n ih =>
    rw [takeLowest]
    split
    · next h0 => simp [h0]
    · next h0 =>
      obtain ⟨hl, hcl⟩ := Word.lowest_spec h0
      have hkl : k ≤ (lowest w).val := by
        by_contra hn
        simp [hc (lowest w) (Nat.zero_le _) (by omega)] at hl
      have hc' : Word.Clear (w &&& (w - 1)) 0 ((lowest w).val + 1) := by
        intro j _ hj
        rw [Word.bit_and_pred h0 (by omega)]
        rcases Nat.lt_succ_iff_lt_or_eq.mp hj with hj | rfl
        · simp [hcl j (Nat.zero_le _) hj]
        · simp
      rw [List.mem_cons, ih hc' (by omega), Word.bit_and_pred h0 s.isLt, Bool.and_eq_true,
        decide_eq_true_eq, Fin.val_ne_iff]
      constructor
      · rintro (rfl | h)
        · exact hl
        · exact h.1
      · intro h
        by_cases he : s = lowest w
        · exact Or.inl he
        · exact Or.inr ⟨h, he⟩

theorem bit_of_mem_takeLowest {n : Nat} {w : UInt64} (h : s ∈ takeLowest n w) :
    Word.bit w s = true := by
  induction n generalizing w with
  | zero => simp [takeLowest] at h
  | succ n ih =>
    rw [takeLowest] at h
    split at h
    · simp at h
    · next h0 =>
      rcases List.mem_cons.mp h with rfl | h
      · exact (Word.lowest_spec h0).1
      · have := ih h
        simp only [Word.bit_and, Bool.and_eq_true] at this
        exact this.1

theorem pairwise_takeLowest (n : Nat) (w : UInt64) : (takeLowest n w).Pairwise (· < ·) := by
  induction n generalizing w with
  | zero => simp [takeLowest]
  | succ n ih =>
    rw [takeLowest]
    split
    · simp
    · next h0 =>
      refine List.pairwise_cons.mpr ⟨fun s hs => ?_, ih _⟩
      have hb := bit_of_mem_takeLowest hs
      rw [Word.bit_and_pred h0 s.isLt] at hb
      have hc := (Word.lowest_spec h0).2
      by_contra hn
      have hlt : s.val < (lowest w).val := by
        simp only [Bool.and_eq_true, decide_eq_true_eq, Fin.lt_def] at hb hn
        omega
      simp [hc s (Nat.zero_le _) hlt] at hb

@[simp] theorem mem_toList : s ∈ b.toList ↔ s ∈ b := by
  rw [toList, mem_takeLowest (k := 0) (fun j _ hj => by omega) (by omega), mem_iff]

theorem pairwise_toList (b : Bitboard) : b.toList.Pairwise (· < ·) := pairwise_takeLowest 64 b.bits

theorem nodup_toList (b : Bitboard) : b.toList.Nodup :=
  (pairwise_toList b).imp Fin.ne_of_lt

/-- A list of the squares of a set, each once, is the listing up to order. -/
theorem perm_toList (hl : l.Nodup) (h : ∀ s, s ∈ l ↔ s ∈ b) : l.Perm b.toList :=
  (List.perm_ext_iff_of_nodup hl (nodup_toList b)).mpr fun s => by rw [h, mem_toList]

theorem toList_single (s : Square) : (single s).toList = [s] :=
  (List.perm_singleton.mp (perm_toList (List.nodup_singleton s) (by simp)).symm)

theorem first?_eq_some_iff : b.first? = some s ↔ s ∈ b ∧ ∀ t ∈ b, s ≤ t := by
  by_cases h0 : b.bits = 0
  · simp [first?, isEmpty, h0, mem_iff]
  · obtain ⟨hl, hc⟩ := Word.lowest_spec h0
    have hmin : ∀ t ∈ b, lowest b.bits ≤ t := by
      intro t ht
      by_contra hn
      rw [mem_iff, hc t (Nat.zero_le _) (Fin.not_le.mp hn)] at ht
      cases ht
    have hf : b.first? = some (lowest b.bits) := by simp [first?, isEmpty, h0]
    rw [hf, Option.some.injEq]
    constructor
    · rintro rfl
      exact ⟨mem_iff.mpr hl, hmin⟩
    · rintro ⟨hs, hs'⟩
      exact Fin.le_antisymm (hmin s hs) (hs' _ (mem_iff.mpr hl))

@[simp] theorem first?_single (s : Square) : (single s).first? = some s := by
  simp [first?_eq_some_iff]

theorem first?_eq_none_iff : b.first? = none ↔ ∀ s, s ∉ b := by
  rw [← isEmpty_iff]
  simp [first?]

theorem card_eq_one_iff : b.card = 1 ↔ ∃ s, b = single s := by
  constructor
  · intro h
    obtain ⟨s, hs⟩ := List.length_eq_one_iff.mp h
    refine ⟨s, ext fun t => ?_⟩
    rw [← mem_toList, hs, List.mem_singleton, mem_single]
  · rintro ⟨s, rfl⟩
    simp [card, toList_single]

/-- The listing of the image of a set. -/
theorem toList_perm_map {f : Square → Square} (hf : Function.Involutive f)
    (h : ∀ s, s ∈ a ↔ f s ∈ b) : a.toList.Perm (b.toList.map f) := by
  refine (perm_toList ((nodup_toList b).map hf.injective) fun s => ?_).symm
  rw [List.mem_map, h]
  constructor
  · rintro ⟨t, ht, rfl⟩
    rwa [hf, ← mem_toList]
  · intro hs
    exact ⟨f s, mem_toList.mpr hs, hf s⟩

end Bitboard

end ChessEval
