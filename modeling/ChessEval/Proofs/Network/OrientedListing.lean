import ChessEval.Proofs.Network.Refreshing

/-! Listing a set of squares step by step, and the listing of a set in a perspective's frame. -/
namespace ChessEval

/-- How many bits of a word are set. -/
def Word.setBits (w : UInt64) : Nat := (List.range 64).countP (Word.bit w)

namespace Bitboard

variable {b rest : Bitboard} {s : Square} {l : List Square}

/-- One step of a listing: the lowest square, and the set without it. -/
def next? (b : Bitboard) : Option (Square × Bitboard) :=
  if b.isEmpty then none else some (lowest b.bits, ⟨b.bits &&& (b.bits - 1)⟩)

/-- The squares of the steps, from a set to the empty one. -/
inductive Listing : Bitboard → List Square → Prop where
  | done {b : Bitboard} (h : b.next? = none) : Listing b []
  | step {b rest : Bitboard} {s : Square} {l : List Square} (h : b.next? = some (s, rest))
      (hrest : Listing rest l) : Listing b (s :: l)

/-- An ascending list of the squares of a set is its listing. -/
theorem toList_eq (hl : l.Pairwise (· < ·)) (h : ∀ s, s ∈ l ↔ s ∈ b) : b.toList = l := by
  have hperm : l.Perm b.toList := perm_toList (hl.imp Fin.ne_of_lt) h
  exact hperm.symm.eq_of_pairwise (fun _ _ _ _ hst hts => (lt_asymm hst hts).elim)
    (pairwise_toList b) hl

theorem length_toList (b : Bitboard) : b.toList.length = Word.setBits b.bits := by
  have hfilter : b.toList = (List.finRange 64).filter fun s => decide (s ∈ b) :=
    toList_eq ((List.pairwise_lt_finRange 64).filter _) fun s => by simp
  have hrange : List.range 64 = (List.finRange 64).map Fin.val := by decide
  rw [hfilter, ← List.countP_eq_length_filter, Word.setBits, hrange, List.countP_map]
  refine List.countP_congr fun s _ => ?_
  rw [decide_eq_true_iff, mem_iff]
  rfl

theorem next?_eq_none_iff : b.next? = none ↔ ∀ s, s ∉ b := by
  rw [next?, ← isEmpty_iff]
  simp

/-- A step takes the least square and leaves the others. -/
theorem next?_eq_some_iff :
    b.next? = some (s, rest) ↔ s ∈ b ∧ (∀ t ∈ b, s ≤ t) ∧ rest = b.erase s := by
  have hfirst : b.next?.map Prod.fst = b.first? := by
    rw [next?, first?]
    split <;> rfl
  have hrest : ∀ p, b.next? = some p → p.2 = b.erase p.1 := by
    intro p h
    obtain ⟨hne, hp⟩ := Option.ite_none_left_eq_some.mp h
    rw [← Option.some.inj hp]
    have h0 : b.bits ≠ 0 := fun h0 => hne (by simp [isEmpty, h0])
    refine ext fun t => ?_
    rw [mem_erase, mem_iff, mem_iff, Word.bit_and_pred h0 t.isLt, Bool.and_eq_true,
      decide_eq_true_iff, Fin.val_ne_iff, and_comm]
  rw [← and_assoc, ← first?_eq_some_iff, ← hfirst, Option.map_eq_some_iff]
  constructor
  · intro h
    exact ⟨⟨_, h, rfl⟩, hrest _ h⟩
  · rintro ⟨⟨p, h, rfl⟩, rfl⟩
    rw [h, ← hrest p h]

theorem toList_of_next?_none (h : b.next? = none) : b.toList = [] :=
  List.eq_nil_iff_forall_not_mem.mpr fun s hs => next?_eq_none_iff.mp h s (mem_toList.mp hs)

theorem toList_of_next? (h : b.next? = some (s, rest)) : b.toList = s :: rest.toList := by
  obtain ⟨hs, hleast, rfl⟩ := next?_eq_some_iff.mp h
  have hlt : ∀ t ∈ (b.erase s).toList, s < t := by
    intro t ht
    obtain ⟨hne, ht⟩ := mem_erase.mp (mem_toList.mp ht)
    exact lt_of_le_of_ne (hleast t ht) hne.symm
  refine toList_eq (List.pairwise_cons.mpr ⟨hlt, pairwise_toList _⟩) fun t => ?_
  rw [List.mem_cons, mem_toList, mem_erase]
  by_cases ht : t = s <;> simp [ht, hs]

theorem listing_toList (b : Bitboard) : Listing b b.toList := by
  generalize hl : b.toList = l
  induction l generalizing b with
  | nil =>
    refine .done (next?_eq_none_iff.mpr fun s hs => ?_)
    rw [← mem_toList, hl] at hs
    cases hs
  | cons s l ih =>
    cases hnext : b.next? with
    | none =>
      rw [toList_of_next?_none hnext] at hl
      cases hl
    | some p =>
      obtain ⟨t, rest⟩ := p
      rw [toList_of_next? hnext] at hl
      obtain ⟨rfl, hrest⟩ := List.cons.inj hl
      exact .step hnext (ih rest hrest)

/-- The steps end, and what they gave is the listing. -/
theorem listing_iff : Listing b l ↔ l = b.toList := by
  constructor
  · intro h
    induction h with
    | done h => exact (toList_of_next?_none h).symm
    | step h _ ih => rw [toList_of_next? h, ih]
  · rintro rfl
    exact listing_toList b

end Bitboard

namespace Feature

theorem mem_orientSet_iff_image {view : Color} {king s : Square} {b : Bitboard} :
    s ∈ orientSet view king b ↔ ∃ t ∈ b, orient view king t = s := by
  rw [mem_orientSet]
  constructor
  · intro h
    exact ⟨_, h, orient_orient view king s⟩
  · rintro ⟨t, ht, rfl⟩
    rwa [orient_orient]

/-- The listing of a set in a perspective's frame has the images of its squares, each once and in
ascending order. The steps of any listing end when they are as many as the bits that are set, and
have then given the squares of the set. -/
theorem oriented_set_lists_images (view : Color) (king : Square) (b : Bitboard) :
    let o := orientSet view king b
    (∀ s, s ∈ o.toList ↔ ∃ t ∈ b, orient view king t = s) ∧ o.toList.Pairwise (· < ·) ∧
    o.toList.length = Word.setBits b.bits ∧
    ∀ c : Bitboard, (∀ l, c.Listing l ↔ l = c.toList) ∧ c.toList.length = Word.setBits c.bits ∧
      c.toList.Pairwise (· < ·) ∧ ∀ s, s ∈ c.toList ↔ Word.bit c.bits s = true := by
  intro o
  refine ⟨fun s => ?_, o.pairwise_toList, ?_, fun c => ⟨fun l => Bitboard.listing_iff,
    c.length_toList, c.pairwise_toList, fun s => ?_⟩⟩
  · rw [Bitboard.mem_toList, mem_orientSet_iff_image]
  · rw [(toList_orientSet_perm view king b).length_eq, List.length_map, b.length_toList]
  · rw [Bitboard.mem_toList, Bitboard.mem_iff]

end Feature

end ChessEval
