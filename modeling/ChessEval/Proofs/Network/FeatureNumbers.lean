import ChessEval.Proofs.Network.AttackPairs
import ChessEval.Proofs.Network.SymmetricFeatures
import ChessEval.Proofs.Network.ThreatChanges

/-! The numbers of a position's features: no two features seen by one side share a number, and there
is a row of weights for each. -/
namespace ChessEval

variable {F : FeatureSet} {p : Position} {view c c' v : Color} {k : Piece} {king s u : Square}
  {t t' : Threat} {l l' : List Nat}

namespace Color

theorem eq_of_eq_iff (h : c = v ↔ c' = v) : c = c' := by
  cases c <;> cases c' <;> cases v <;> simp_all

/-- A color in the frame of a perspective, whose own pieces are the white ones. -/
def relative (view c : Color) : Color := if c = view then .white else .black

theorem relative_inj (h : relative view c = relative view c') : c = c' := by
  have hview : c = view ↔ c' = view := by
    unfold relative at h
    split at h <;> split at h <;> simp_all
  exact eq_of_eq_iff hview

end Color

open Color

namespace Feature

theorem orient_inj (h : orient view king s = orient view king u) : s = u := by
  rw [← orient_orient view king s, h, orient_orient]

/-- A number counted through two blocks of one size tells the block and the place in it. -/
theorem block_inj {P Q : Prop} [Decidable P] [Decidable Q] {n i j : Nat} (hi : i < n) (hj : j < n)
    (h : (if P then 0 else n) + i = (if Q then 0 else n) + j) : (P ↔ Q) ∧ i = j := by
  by_cases hp : P <;> by_cases hq : Q
  · rw [if_pos hp, if_pos hq] at h
    exact ⟨iff_of_true hp hq, by omega⟩
  · rw [if_pos hp, if_neg hq] at h
    omega
  · rw [if_neg hp, if_pos hq] at h
    omega
  · rw [if_neg hp, if_neg hq] at h
    exact ⟨iff_of_false hp hq, by omega⟩

end Feature

open Feature

namespace Transformer

theorem placedIndex_lt (view : Color) (king : Square) (x : Placed) :
    placedIndex view king x < count :=
  orientedIndex_lt view x.color x.piece (orient view king x.square)

/-- The number of a piece tells its color, its kind and its square. -/
theorem placedIndex_injective (view : Color) (king : Square) :
    Function.Injective (placedIndex view king) := by
  rintro ⟨c, k, s⟩ ⟨c', k', s'⟩ h
  have hk := k.index_lt
  have hk' := k'.index_lt
  have hs := (orient view king s).isLt
  have hs' := (orient view king s').isLt
  simp only [placedIndex, Feature.index, orientedIndex] at h
  rw [Nat.add_assoc, Nat.add_assoc] at h
  obtain ⟨hcolor, h⟩ := block_inj (by omega) (by omega) h
  obtain rfl := eq_of_eq_iff hcolor
  have hindex : k.index = k'.index := by omega
  obtain rfl := Piece.index_injective hindex
  have hsquare : (orient view king s).val = (orient view king s').val := by omega
  rw [orient_inj (Fin.ext hsquare)]

end Transformer

namespace Feature

theorem lt_count_of_mem_active {i : Nat} (hi : i ∈ active p view king) : i < count := by
  rw [Position.active_eq_map] at hi
  obtain ⟨x, -, rfl⟩ := List.mem_map.mp hi
  exact Transformer.placedIndex_lt view king x

theorem nodup_active (p : Position) (view : Color) (king : Square) :
    (active p view king).Nodup := by
  rw [Position.active_eq_map]
  exact (Position.nodup_placedPieces p).map (Transformer.placedIndex_injective view king)

end Feature

theorem RefreshCache.lt_count_of_mem_surplus {a b : Color → PieceSets} {i : Nat}
    (hi : i ∈ surplus view a b) : i < count := by
  obtain ⟨c, -, hi⟩ := List.mem_flatMap.mp hi
  obtain ⟨k, -, hi⟩ := List.mem_flatMap.mp hi
  obtain ⟨s, -, rfl⟩ := List.mem_map.mp hi
  exact orientedIndex_lt view c k s

namespace Threat

theorem reach_image (σ : Symmetry) (c : Color) (k : Piece) (s : Square) :
    reach (σ.color c) k (σ.square s) = σ.set (reach c k s) := by
  have hempty : σ.set .empty = .empty := Bitboard.ext fun s => by simp
  rw [reach, strandedPawn_image, reach]
  split
  · exact hempty.symm
  · rw [← Piece.attacks_image, hempty]

/-- In the frame of a perspective a piece reaches the same squares as on the board. -/
theorem mem_reach_orient (view : Color) (king : Square) :
    orient view king u ∈ reach (relative view c) k (orient view king s) ↔ u ∈ reach c k s := by
  have himage : ∀ (σ : Symmetry) (c : Color) (s u : Square),
      σ.square u ∈ reach (σ.color c) k (σ.square s) ↔ u ∈ reach c k s := by
    intro σ c s u
    rw [reach_image, Symmetry.mem_set, Symmetry.square_square]
  have hreflect := himage .reflect
  have hflip := himage .flip
  cases view with
  | white =>
    have hc : relative .white c = c := by cases c <;> rfl
    rw [hc]
    simp only [orient]
    split
    · exact hreflect c s u
    · rfl
  | black =>
    have hc : relative .black c = c.opponent := by cases c <;> rfl
    rw [hc]
    simp only [orient]
    split
    · exact (hflip c _ _).trans (hreflect c s u)
    · exact hflip c s u

/-- A threat of some board: the attack is there on the empty one. -/
def Possible (t : Threat) : Prop := t.target ∈ reach t.color t.piece t.origin

theorem possible_of_mem_all (ht : t ∈ all p) : t.Possible := by
  obtain ⟨-, ht⟩ := mem_all.mp ht
  obtain ⟨-, hs, ha, -⟩ := mem_ofPiece.mp ht
  rw [Possible, reach, if_neg hs]
  apply Piece.attacks_mono _ ha
  intro u hu
  exact (Bitboard.not_mem_empty u hu).elim

theorem possible_of_mem_sorted (ht : t ∈ sorted p) : t.Possible :=
  possible_of_mem_all ((sorted_perm p).mem_iff.mp ht)

/-- Behind the piece-square numbers come the pairs against friends, then those against foes. -/
theorem index_eq (view : Color) (king : Square) (t : Threat) : index view king t =
    count + (if t.victim = t.color then 0 else pairs) +
      pairNumber (relative view t.color) t.piece (orient view king t.origin)
        (orient view king t.target) := by
  simp only [index, offsetTable_get, reachTable_get, pairNumber, relative]
  omega

theorem count_le_index (view : Color) (king : Square) (t : Threat) : count ≤ index view king t := by
  rw [index_eq]
  omega

namespace Possible

theorem index_lt (ht : t.Possible) (view : Color) (king : Square) :
    index view king t < inputs := by
  have hpair := pairNumber_lt ((mem_reach_orient view king).mpr ht)
  rw [index_eq, inputs]
  split <;> omega

/-- The number of a threat tells it from all other possible ones. -/
theorem index_inj (ht : t.Possible) (ht' : t'.Possible)
    (h : index view king t = index view king t') : t = t' := by
  have hmem := (mem_reach_orient view king).mpr ht
  have hmem' := (mem_reach_orient view king).mpr ht'
  have hpair := pairNumber_lt hmem
  have hpair' := pairNumber_lt hmem'
  rw [index_eq, index_eq, Nat.add_assoc, Nat.add_assoc] at h
  obtain ⟨hblock, h⟩ := block_inj hpair hpair' (Nat.add_left_cancel h)
  obtain ⟨hc, hk, hs, hu⟩ := pairNumber_inj hmem hmem' h
  obtain ⟨c, k, s, v, u⟩ := t
  obtain ⟨c', k', s', v', u'⟩ := t'
  obtain rfl := relative_inj hc
  obtain rfl := eq_of_eq_iff hblock
  obtain rfl : k = k' := hk
  obtain rfl : s = s' := orient_inj hs
  obtain rfl : u = u' := orient_inj hu
  rfl

end Possible

theorem nodup_indices (p : Position) (view : Color) (king : Square) :
    ((all p).map (index view king)).Nodup := by
  apply (List.nodup_map_iff_inj_on (nodup_all p)).mpr
  intro t ht t' ht' h
  exact (possible_of_mem_all ht).index_inj (possible_of_mem_all ht') h

end Threat

namespace FeatureSet

/-- Each of the numbers is that of a row of weights. -/
def HasRows (F : FeatureSet) (l : List Nat) : Prop := ∀ i ∈ l, i < F.inputs

theorem count_le_inputs (F : FeatureSet) : count ≤ F.inputs := by
  cases F <;> decide

theorem hasRows_of_lt_count (F : FeatureSet) (h : ∀ i ∈ l, i < count) : F.HasRows l := by
  intro i hi
  exact Nat.lt_of_lt_of_le (h i hi) F.count_le_inputs

theorem HasRows.append (h : F.HasRows l) (h' : F.HasRows l') : F.HasRows (l ++ l') := by
  intro i hi
  exact (List.mem_append.mp hi).elim (h i) (h' i)

theorem hasRows_threatIndices (F : FeatureSet) {l : List Threat} (h : ∀ t ∈ l, t.Possible)
    (view : Color) (king : Square) : F.HasRows (F.threatIndices l view king) := by
  intro i hi
  cases F with
  | pieceSquare => cases hi
  | withThreats =>
    obtain ⟨t, ht, rfl⟩ := List.mem_map.mp hi
    exact (h t ht).index_lt view king

theorem hasRows_active (F : FeatureSet) (p : Position) (view : Color) (king : Square) :
    F.HasRows (F.active p view king) := by
  rw [F.active_eq]
  apply HasRows.append
  · exact F.hasRows_of_lt_count fun i hi => lt_count_of_mem_active hi
  · exact F.hasRows_threatIndices (fun t ht => Threat.possible_of_mem_all ht) view king

theorem nodup_active (F : FeatureSet) (p : Position) (view : Color) (king : Square) :
    (F.active p view king).Nodup := by
  cases F with
  | pieceSquare => exact Feature.nodup_active p view king
  | withThreats =>
    apply (Feature.nodup_active p view king).append (Threat.nodup_indices p view king)
    intro i hi hi'
    have hlt := lt_count_of_mem_active hi
    obtain ⟨t, -, rfl⟩ := List.mem_map.mp hi'
    have hle := Threat.count_le_index view king t
    omega

end FeatureSet

namespace ThreatChange

theorem possible_of_mem_removed {q : Position}
    (ht : t ∈ (between (Threat.sorted p) (Threat.sorted q)).removed) : t.Possible :=
  Threat.possible_of_mem_sorted ((removed_sublist _ _).subset ht)

theorem possible_of_mem_added {q : Position}
    (ht : t ∈ (between (Threat.sorted p) (Threat.sorted q)).added) : t.Possible :=
  Threat.possible_of_mem_sorted ((added_sublist _ _).subset ht)

end ThreatChange

/-- Seen by either side, the features of a position that a FEN tells have different numbers, those
of pieces below those of threats, and there is a row for each number that is looked up: by a refresh
from scratch, by one from the cache whatever its entry holds, and by an update whatever it leads
from and to. -/
theorem Position.features_have_rows_of_their_own {text : String} (h : ofFen text = .ok p)
    (view : Color) : ∃ king, p.king? view = some king ∧
      (Feature.active p view king ++ (Threat.all p).map (Threat.index view king)).Nodup ∧
      (∀ i ∈ Feature.active p view king, i < 768) ∧
      (∀ t ∈ Threat.all p, 768 ≤ Threat.index view king t ∧ Threat.index view king t < 15776) ∧
      ∀ F : FeatureSet, (F.active p view king).Nodup ∧ F.HasRows (F.active p view king) ∧
        F.HasRows (F.threatIndices (Threat.all p) view king) ∧
        (∀ a b, F.HasRows (RefreshCache.surplus view a b)) ∧
        ∀ (d : Change) (q q' : Position) (king' : Square),
          F.HasRows (d.removed.map (Transformer.placedIndex view king')) ∧
          F.HasRows (d.added.map (Transformer.placedIndex view king')) ∧
          F.HasRows (F.threatIndices
            (ThreatChange.between (Threat.sorted q) (Threat.sorted q')).removed view king') ∧
          F.HasRows (F.threatIndices
            (ThreatChange.between (Threat.sorted q) (Threat.sorted q')).added view king') := by
  obtain ⟨king, hking, -⟩ := (sound_of_ofFen h).exists_king view
  refine ⟨king, hking, FeatureSet.nodup_active .withThreats p view king,
    fun i hi => lt_count_of_mem_active hi, ?_, ?_⟩
  · intro t ht
    exact ⟨Threat.count_le_index view king t, (Threat.possible_of_mem_all ht).index_lt view king⟩
  · intro F
    refine ⟨F.nodup_active p view king, F.hasRows_active p view king, ?_, ?_, ?_⟩
    · exact F.hasRows_threatIndices (fun t ht => Threat.possible_of_mem_all ht) view king
    · intro a b
      exact F.hasRows_of_lt_count fun i hi => RefreshCache.lt_count_of_mem_surplus hi
    · intro d q q' king'
      have hplaced : ∀ l : List Placed, F.HasRows (l.map (Transformer.placedIndex view king')) := by
        intro l
        apply F.hasRows_of_lt_count
        intro i hi
        obtain ⟨x, -, rfl⟩ := List.mem_map.mp hi
        exact Transformer.placedIndex_lt view king' x
      exact ⟨hplaced d.removed, hplaced d.added,
        F.hasRows_threatIndices (fun t ht => ThreatChange.possible_of_mem_removed ht) view king',
        F.hasRows_threatIndices (fun t ht => ThreatChange.possible_of_mem_added ht) view king'⟩

/-- Black sees the board from the other side, and mirrored since its king stands on the right half:
the knight attacks from f6 and the queen from e4. -/
theorem Position.features_have_rows_of_their_own_of_mirrored : ∃ p king,
    ofFen "6k1/5ppp/8/3q4/8/2N5/5PPP/3R2K1 b - - 0 1" = .ok p ∧ p.king? .black = some king ∧
      Threat.mk .white .knight 18 .black 35 ∈ Threat.all p ∧
      Threat.mk .black .queen 35 .white 3 ∈ Threat.all p ∧
      (Feature.active p .black king ++ (Threat.all p).map (Threat.index .black king)).Nodup ∧
      Threat.index .black king ⟨.white, .knight, 18, .black, 35⟩ < 15776 ∧
      768 ≤ Threat.index .black king ⟨.black, .queen, 35, .white, 3⟩ := by
  obtain ⟨p, hfen, h⟩ := exists_of_ofFen "6k1/5ppp/8/3q4/8/2N5/5PPP/3R2K1 b - - 0 1"
    (fun p => Threat.mk .white .knight 18 .black 35 ∈ Threat.all p ∧
      Threat.mk .black .queen 35 .white 3 ∈ Threat.all p) (by decide +kernel)
  obtain ⟨hknight, hqueen⟩ := of_decide_eq_true h
  obtain ⟨king, hking, hnodup, -, hrange, -⟩ := features_have_rows_of_their_own hfen .black
  exact ⟨p, king, hfen, hking, hknight, hqueen, hnodup, (hrange _ hknight).2, (hrange _ hqueen).1⟩

end ChessEval
