import ChessEval.Proofs.Board.Sliding

/-! Attacks along a rank: the table, asked with six bits, knows the squares that a walk reaches. -/
namespace ChessEval

open Square

variable {s t : Square} {blocked : Square → Prop} {f : Fin 8} {occupied : Bitboard}

namespace Square

theorem ray_rank (s : Square) :
    ray s (0, 1) = ((List.finRange 8).filter (s.file < ·)).map (ofCoords s.rank) := by
  revert s
  decide +kernel

theorem mem_ray_rank : t ∈ ray s (0, 1) ↔ t.rank = s.rank ∧ s.file < t.file := by
  rw [ray_rank]
  simp only [List.mem_map, List.mem_filter, List.mem_finRange, true_and, decide_eq_true_eq]
  constructor
  · rintro ⟨f, hf, rfl⟩
    simpa using hf
  · rintro ⟨hr, hf⟩
    exact ⟨t.file, hf, eq_of_coords (by simp [hr]) (by simp)⟩

/-- Sliding to the right is stopped by the squares between only. -/
theorem slides_rank_iff : Slides blocked (0, 1) s t ↔ t.rank = s.rank ∧ s.file < t.file ∧
    ∀ f, s.file < f → f < t.file → ¬ blocked (ofCoords s.rank f) := by
  have hlt : ∀ u : Square, u.rank = t.rank → (u < t ↔ u.file < t.file) := fun u hu => by
    have := val_eq u
    have := val_eq t
    have := congrArg Fin.val hu
    simp only [Fin.lt_def]
    omega
  rw [slides_iff_ray .rank, mem_ray_rank, and_assoc]
  refine and_congr_right fun hr => and_congr_right fun _ => ?_
  constructor
  · intro h f hs ht
    exact h _ (mem_ray_rank.mpr (by simpa using hs)) ((hlt _ (by simp [hr])).mpr (by simpa using ht))
  · intro h u hu hut
    obtain ⟨hur, hsu⟩ := mem_ray_rank.mp hu
    have hback : ofCoords s.rank u.file = u := eq_of_coords (by simp [hur]) (by simp)
    rw [← hback]
    exact h _ hsu ((hlt u (hur.trans hr.symm)).mp hut)

/-- Sliding to the left is sliding to the right from the other end. -/
theorem slides_rank_reverse_iff : Slides blocked (0, -1) s t ↔ t.rank = s.rank ∧ t.file < s.file ∧
    ∀ f, t.file < f → f < s.file → ¬ blocked (ofCoords s.rank f) := by
  have hsymm : Slides blocked (0, -1) s t ↔ Slides blocked (0, 1) t s :=
    ⟨fun h => h.symm, fun h => h.symm⟩
  rw [hsymm, slides_rank_iff, eq_comm]
  exact and_congr_right fun hr => by rw [hr]

/-- What lies to both sides of a square on its rank, as far as the squares between are free. -/
theorem slides_rank_congr (blocked free : Square → Prop) {u : Square} (hf : u.file = s.file)
    (h : ∀ f : Fin 8, 0 < f.val → f.val < 7 →
      (blocked (ofCoords u.rank f) ↔ free (ofCoords s.rank f))) :
    Slides blocked (0, 1) u (ofCoords u.rank f) ∨ Slides blocked (0, -1) u (ofCoords u.rank f) ↔
      Slides free (0, 1) s (ofCoords s.rank f) ∨ Slides free (0, -1) s (ofCoords s.rank f) := by
  simp only [slides_rank_iff, slides_rank_reverse_iff, rank_ofCoords, file_ofCoords, true_and, hf,
    Fin.lt_def]
  -- a square between two others is not at an end of the rank
  refine or_congr (and_congr_right fun hlt => forall_congr' fun g => ?_)
    (and_congr_right fun hlt => forall_congr' fun g => ?_) <;>
  refine imp_congr_right fun hlow => imp_congr_right fun hhigh => not_congr (h g ?_ ?_) <;> omega

end Square

namespace Attack

theorem mem_alongFirstRank {inner : Fin 64} : t ∈ alongFirstRank inner f ↔
    Slides (· ∈ innerSquares inner) (0, 1) (ofCoords Square.firstRank f) t ∨
      Slides (· ∈ innerSquares inner) (0, -1) (ofCoords Square.firstRank f) t := by
  rw [alongFirstRank, Bitboard.mem_ofList, List.mem_append, mem_upToFirst_ray .rank]
  exact or_congr_right (mem_upToFirst_ray_reverse .rank)

/-- The six bits tell of each inner square of the rank whether it is occupied. -/
theorem mem_innerSquares (r : Fin 8) (hlow : 0 < f.val) (hhigh : f.val < 7) :
    ofCoords Square.firstRank f ∈ innerSquares (innerBits occupied r) ↔
      ofCoords r f ∈ occupied := by
  have hone : (1 : UInt64).toNat = 1 := rfl
  have hshift : (UInt64.ofNat (8 * r.val + 1)).toNat = 8 * r.val + 1 := by
    rw [UInt64.toNat_ofNat', Nat.mod_eq_of_lt (by omega)]
  have hbit : (innerBits occupied r).val.testBit (f.val - 1) =
      Word.bit occupied.bits (ofCoords r f) := by
    have hsquare : f.val - 1 + (8 * r.val + 1) = (ofCoords r f).val := by
      simp only [ofCoords]
      omega
    have hmod : (innerBits occupied r).val =
        (occupied.bits >>> UInt64.ofNat (8 * r.val + 1)).toNat % 2 ^ 6 := rfl
    rw [hmod, Nat.testBit_mod_two_pow, decide_eq_true (by omega), Bool.true_and,
      Word.testBit_toNat, Word.bit_shiftRight _ _ (by omega), hshift, hsquare]
  have hfirst : (ofCoords Square.firstRank f).val = f.val := by simp [ofCoords, Square.firstRank]
  rw [Bitboard.mem_iff, Bitboard.mem_iff, innerSquares, hfirst,
    Word.bit_shiftLeft _ _ (by decide) (by omega), hone, decide_eq_true (by omega), Bool.true_and,
    Word.bit_ofNat _ (by omega), hbit]

/-- Squares of the first rank moved up to another one. -/
theorem mem_shiftLeft {b : Bitboard} (r : Fin 8) (hb : ∀ u ∈ b, u.rank = Square.firstRank) :
    t ∈ (⟨b.bits <<< UInt64.ofNat (8 * r.val)⟩ : Bitboard) ↔
      t.rank = r ∧ ofCoords Square.firstRank t.file ∈ b := by
  have hshift : (UInt64.ofNat (8 * r.val)).toNat = 8 * r.val := by
    rw [UInt64.toNat_ofNat', Nat.mod_eq_of_lt (by omega)]
  have hfirst : (ofCoords Square.firstRank t.file).val = t.file.val := by
    simp [ofCoords, Square.firstRank]
  have ht := val_eq t
  rw [Bitboard.mem_iff, Bitboard.mem_iff, Word.bit_shiftLeft _ _ (by omega) t.isLt, hshift,
    Bool.and_eq_true, decide_eq_true_eq, hfirst]
  constructor
  · rintro ⟨hle, hbit⟩
    have hr := congrArg Fin.val (hb ⟨t.val - 8 * r.val, by omega⟩ (Bitboard.mem_iff.mpr hbit))
    simp only [Square.rank, Square.firstRank] at hr
    have hfile : t.val - 8 * r.val = t.file.val := by omega
    exact ⟨Fin.ext (by omega), hfile ▸ hbit⟩
  · rintro ⟨rfl, hbit⟩
    have hfile : t.val - 8 * t.rank.val = t.file.val := by omega
    exact ⟨by omega, hfile ▸ hbit⟩

/-- The table's answer is what the two slides along the rank reach. -/
theorem mem_rank : t ∈ rank occupied s ↔
    Slides (· ∈ occupied) (0, 1) s t ∨ Slides (· ∈ occupied) (0, -1) s t := by
  have hfirst : ∀ inner, ∀ u ∈ alongFirstRank inner s.file, u.rank = Square.firstRank := by
    intro inner u hu
    rcases mem_alongFirstRank.mp hu with hu | hu
    · simpa using (slides_rank_iff.mp hu).1
    · simpa using (slides_rank_reverse_iff.mp hu).1
  have hcongr := slides_rank_congr (s := s) (f := t.file)
    (· ∈ innerSquares (innerBits occupied s.rank)) (· ∈ occupied)
    (file_ofCoords Square.firstRank s.file) fun f hlow hhigh => by
      rw [rank_ofCoords]
      exact mem_innerSquares s.rank hlow hhigh
  have hrank : Slides (· ∈ occupied) (0, 1) s t ∨ Slides (· ∈ occupied) (0, -1) s t →
      t.rank = s.rank := by
    rintro (h | h)
    · exact (slides_rank_iff.mp h).1
    · exact (slides_rank_reverse_iff.mp h).1
  rw [rank_ofCoords] at hcongr
  rw [rank, rankTable]
  simp only [Fin.getElem_fin, Vector.getElem_ofFn, Fin.eta]
  rw [mem_shiftLeft _ (hfirst _), mem_alongFirstRank, hcongr]
  have hback : t.rank = s.rank → ofCoords s.rank t.file = t := fun hr =>
    eq_of_coords (by simp [hr]) (by simp)
  constructor
  · rintro ⟨hr, h⟩
    rwa [hback hr] at h
  · intro h
    exact ⟨hrank h, by rwa [hback (hrank h)]⟩

end Attack

end ChessEval
