import Mathlib
import ChessEval.Proofs.Network.Updating

/-! The numbering of pairs of a piece on a square and a square it reaches on an empty board: the tables
count the pairs slot after slot, and so give each a number of its own. -/
namespace ChessEval

variable {a b : Bitboard} {c c' : Color} {k k' : Piece} {s s' t t' u : Square}

namespace Bitboard

theorem card_lt_card (hsub : ∀ s, s ∈ a → s ∈ b) (hb : t ∈ b) (ha : t ∉ a) : a.card < b.card := by
  have hnodup : (t :: a.toList).Nodup := by
    apply List.nodup_cons.mpr
    exact ⟨fun h => ha (mem_toList.mp h), nodup_toList a⟩
  have hsubset : t :: a.toList ⊆ b.toList := by
    intro s hs
    rcases List.mem_cons.mp hs with rfl | hs
    · exact mem_toList.mpr hb
    · exact mem_toList.mpr (hsub s (mem_toList.mp hs))
  exact (hnodup.subperm hsubset).length_le

/-- A member of a set has fewer members below it than the set has. -/
theorem card_below_lt (ht : t ∈ b) : (b &&& below t).card < b.card := by
  apply card_lt_card _ ht
  · simp
  · intro s hs
    exact (mem_and.mp hs).1

theorem card_below_lt_card_below (ht : t ∈ b) (htu : t < u) :
    (b &&& below t).card < (b &&& below u).card := by
  apply card_lt_card
  · intro s hs
    obtain ⟨hb, hst⟩ := mem_and.mp hs
    exact mem_and.mpr ⟨hb, mem_below.mpr (lt_trans (mem_below.mp hst) htu)⟩
  · exact mem_and.mpr ⟨ht, mem_below.mpr htu⟩
  · simp

/-- The members of a set are told apart by how many members are below them. -/
theorem card_below_inj (ht : t ∈ b) (hu : u ∈ b)
    (h : (b &&& below t).card = (b &&& below u).card) : t = u := by
  rcases lt_trichotomy t u with htu | htu | htu
  · have := card_below_lt_card_below ht htu
    omega
  · exact htu
  · have := card_below_lt_card_below hu htu
    omega

end Bitboard

namespace Threat

/-- In lists of one length, joined, the place of an entry tells the list and the place in it. -/
theorem getElem?_flatMap {α β : Type} {l : List α} {f : α → List β} {n i j : Nat} {x : α}
    (hn : ∀ x, (f x).length = n) (hx : l[i]? = some x) (hj : j < n) :
    (l.flatMap f)[n * i + j]? = (f x)[j]? := by
  induction l generalizing i with
  | nil => cases hx
  | cons y l ih =>
    rw [List.flatMap_cons]
    cases i with
    | zero =>
      obtain rfl := Option.some.inj hx
      rw [Nat.mul_zero, Nat.zero_add, List.getElem?_append_left (by rw [hn]; exact hj)]
    | succ i =>
      rw [List.getElem?_append_right (by rw [hn, Nat.mul_succ]; omega), hn, ← ih hx]
      congr 1
      rw [Nat.mul_succ]
      omega

theorem length_flatMap {α β : Type} {f : α → List β} {n : Nat} (hn : ∀ x, (f x).length = n)
    (l : List α) : (l.flatMap f).length = l.length * n := by
  simp [List.length_flatMap, hn]

theorem getElem?_slots (c : Color) (k : Piece) (s : Square) :
    slots[slotNumber c k s]? = some (c, k, s) := by
  have hs : (Square.all.map fun s => (c, k, s))[s.val]? = some (c, k, s) := by
    simp [Square.all]
  have hkinds : ∀ c k, (Square.all.map fun s => ((c, k, s) : Color × Piece × Square)).length = 64 := by
    intro c k
    rw [List.length_map, Square.all, List.length_finRange]
  have hcolors : ∀ c, (Piece.all.flatMap fun k =>
      Square.all.map fun s => ((c, k, s) : Color × Piece × Square)).length = 384 := by
    intro c
    rw [length_flatMap (hkinds c)]
    rfl
  have hk : Piece.all[k.index]? = some k := by cases k <;> rfl
  have hc : Color.all[c.index]? = some c := by cases c <;> rfl
  have hlt : 64 * k.index + s < 384 := by
    have := s.isLt
    cases k <;> simp only [Piece.index] <;> omega
  rw [slots, slotNumber, Nat.add_assoc, getElem?_flatMap hcolors hc hlt,
    getElem?_flatMap (hkinds c) hk s.isLt, hs]

theorem reachTable_get (c : Color) (k : Piece) (s : Square) :
    reachTable.get (slot c k s) = reach c k s := by
  rw [reachTable, Vector.get_ofFn]
  simp only [slot, getElem?_slots]

theorem offsetTable_get (c : Color) (k : Piece) (s : Square) :
    offsetTable.get (slot c k s) = (reachSizes.take (slotNumber c k s)).sum := by
  rw [offsetTable, Vector.get_ofFn, List.sum_eq_foldr]
  rfl

theorem getElem?_reachSizes (c : Color) (k : Piece) (s : Square) :
    reachSizes[slotNumber c k s]? = some (reach c k s).card := by
  rw [reachSizes, List.getElem?_map, getElem?_slots, Option.map_some]

/-- Only pawns of the two colors attack differently. -/
theorem reach_eq_of_ne_pawn (hk : k ≠ .pawn) (c c' : Color) (s : Square) :
    reach c k s = reach c' k s := by
  cases k <;> first | rfl | exact (hk rfl).elim

/-- How many of the pairs are a kind's. -/
def pairsOf : Piece → Nat
  | .pawn => 84
  | .knight => 336
  | .bishop => 560
  | .rook => 896
  | .queen => 1456
  | .king => 420

theorem sum_card_reach (c : Color) (k : Piece) :
    (Square.all.map fun s => (reach c k s).card).sum = pairsOf k := by
  by_cases hk : k = .pawn
  · subst hk
    cases c <;> decide +kernel
  · simp only [reach_eq_of_ne_pawn hk c .white]
    cases k with
    | pawn => exact (hk rfl).elim
    | knight => decide +kernel
    | bishop => decide +kernel
    | rook => decide +kernel
    | queen => decide +kernel
    | king => decide +kernel

theorem sum_reachSizes : reachSizes.sum = pairs := by
  have hsizes : reachSizes = Color.all.flatMap fun c => Piece.all.flatMap fun k =>
      Square.all.map fun s => (reach c k s).card := by
    simp only [reachSizes, slots, List.map_flatMap, List.map_map, Function.comp_def]
  simp only [hsizes, List.flatMap_def, List.sum_flatten, List.map_map, Function.comp_def,
    sum_card_reach]
  rfl

/-- The sizes before a place and the one there come before every later place. -/
theorem sum_take_add_le {l : List Nat} {i j n : Nat} (hi : l[i]? = some n) (hij : i < j) :
    (l.take i).sum + n ≤ (l.take j).sum := by
  have hsum : (l.take (i + 1)).sum = (l.take i).sum + n := by
    rw [List.take_add_one, hi, List.sum_append]
    simp
  rw [← hsum]
  exact l.monotone_sum_take hij

/-- The number of a pair: the pairs of earlier slots and the earlier squares of its own. -/
def pairNumber (c : Color) (k : Piece) (s t : Square) : Nat :=
  (reachSizes.take (slotNumber c k s)).sum + (reach c k s &&& .below t).card

theorem pairNumber_lt (ht : t ∈ reach c k s) : pairNumber c k s t < pairs := by
  have hbelow := Bitboard.card_below_lt ht
  have hslot := sum_take_add_le (getElem?_reachSizes c k s) (slotNumber_lt c k s)
  have htotal : (reachSizes.take 768).sum ≤ reachSizes.sum :=
    (List.take_sublist 768 reachSizes).sum_le_sum fun n _ => Nat.zero_le n
  rw [sum_reachSizes] at htotal
  rw [pairNumber]
  omega

theorem pairNumber_lt_of_slotNumber_lt (ht : t ∈ reach c k s)
    (h : slotNumber c k s < slotNumber c' k' s') (t' : Square) :
    pairNumber c k s t < pairNumber c' k' s' t' := by
  have hbelow := Bitboard.card_below_lt ht
  have hslot := sum_take_add_le (getElem?_reachSizes c k s) h
  rw [pairNumber, pairNumber]
  omega

theorem slotNumber_inj (h : slotNumber c k s = slotNumber c' k' s') :
    c = c' ∧ k = k' ∧ s = s' := by
  have hs := getElem?_slots c k s
  rw [h, getElem?_slots] at hs
  obtain ⟨rfl, rfl, rfl⟩ := Prod.mk.inj (Option.some.inj hs)
  exact ⟨rfl, rfl, rfl⟩

/-- Different pairs have different numbers. -/
theorem pairNumber_inj (ht : t ∈ reach c k s) (ht' : t' ∈ reach c' k' s')
    (h : pairNumber c k s t = pairNumber c' k' s' t') : c = c' ∧ k = k' ∧ s = s' ∧ t = t' := by
  rcases Nat.lt_trichotomy (slotNumber c k s) (slotNumber c' k' s') with hlt | heq | hlt
  · have := pairNumber_lt_of_slotNumber_lt ht hlt t'
    omega
  · obtain ⟨rfl, rfl, rfl⟩ := slotNumber_inj heq
    refine ⟨rfl, rfl, rfl, Bitboard.card_below_inj ht ht' ?_⟩
    rw [pairNumber, pairNumber] at h
    omega
  · have := pairNumber_lt_of_slotNumber_lt ht' hlt t
    omega

end Threat

end ChessEval
