import ChessEval.Proofs.Board.Reading
import ChessEval.Proofs.Network.Updating

/-! The sorted list of a position's threats: each once, and exactly those that looking back from the
attacked squares finds. -/
namespace ChessEval

open Rules

variable {p : Position} {c : Color} {k : Piece} {s : Square} {t u : Threat} {x : Placed}

namespace Threat

theorem strandedPawn_iff : strandedPawn k s = true ↔
    k = .pawn ∧ (s.rank = Square.firstRank ∨ s.rank = Square.eighthRank) := by
  simp [strandedPawn]

/-- The threats of one piece, by its place. -/
theorem all_eq_flatMap (p : Position) :
    all p = p.placedPieces.flatMap fun x => ofPiece p x.color x.piece x.square := by
  simp only [all, Position.placedPieces, List.flatMap_assoc, List.flatMap_map]

/-- A piece that is no stranded pawn threatens the occupied squares among those it attacks. -/
theorem mem_ofPiece : t ∈ ofPiece p c k s ↔
    (t.color = c ∧ t.piece = k ∧ t.origin = s) ∧ ¬ strandedPawn k s = true ∧
      t.target ∈ k.attacks c s p.occupied ∧ t.target ∈ p.occupied ∧
      t.victim = if t.target ∈ p.occupiedBy c then c else c.opponent := by
  obtain ⟨c', k', s', v, u⟩ := t
  rw [ofPiece]
  split
  · next hs => simp [hs]
  · next hs =>
    simp only [List.mem_map, Bitboard.mem_toList, Bitboard.mem_and, Threat.mk.injEq]
    constructor
    · rintro ⟨w, ⟨ha, ho⟩, rfl, rfl, rfl, rfl, rfl⟩
      exact ⟨⟨rfl, rfl, rfl⟩, hs, ha, ho, rfl⟩
    · rintro ⟨⟨rfl, rfl, rfl⟩, -, ha, ho, hv⟩
      exact ⟨u, ⟨ha, ho⟩, rfl, rfl, rfl, hv.symm, rfl⟩

theorem mem_all : t ∈ all p ↔ t.origin ∈ p.pieces t.color t.piece ∧
    t ∈ ofPiece p t.color t.piece t.origin := by
  rw [all_eq_flatMap, List.mem_flatMap]
  constructor
  · rintro ⟨⟨c, k, s⟩, hx, ht⟩
    obtain ⟨⟨rfl, rfl, rfl⟩, -⟩ := mem_ofPiece.mp ht
    exact ⟨Position.mem_placedPieces.mp hx, ht⟩
  · rintro ⟨hs, ht⟩
    exact ⟨⟨t.color, t.piece, t.origin⟩, Position.mem_placedPieces.mpr hs, ht⟩

theorem nodup_ofPiece (p : Position) (c : Color) (k : Piece) (s : Square) :
    (ofPiece p c k s).Nodup := by
  rw [ofPiece]
  split
  · exact List.nodup_nil
  · apply (Bitboard.nodup_toList _).map
    intro u v h
    exact congrArg Threat.target h

theorem nodup_all (p : Position) : (all p).Nodup := by
  rw [all_eq_flatMap]
  apply List.nodup_flatMap.mpr
  refine ⟨fun x _ => nodup_ofPiece p x.color x.piece x.square, ?_⟩
  apply (Position.nodup_placedPieces p).imp
  intro x y hne t hx hy
  obtain ⟨⟨hc, hk, hs⟩, -⟩ := mem_ofPiece.mp hx
  obtain ⟨⟨hc', hk', hs'⟩, -⟩ := mem_ofPiece.mp hy
  apply hne
  cases x
  cases y
  simp_all

/-- The keys rise along the sorted list. -/
theorem pairwise_sorted (p : Position) : (sorted p).Pairwise fun t u => t.key < u.key := by
  have hle : (sorted p).Pairwise fun t u => t.key ≤ u.key := by
    have h := @List.pairwise_mergeSort Threat (fun t u => decide (t.key ≤ u.key))
      (by intro t u v htu huv; simp only [decide_eq_true_eq] at *; omega)
      (by intro t u; simp only [Bool.or_eq_true, decide_eq_true_eq]; omega) (all p)
    simpa only [sorted, decide_eq_true_eq] using h
  have hnodup : (sorted p).Nodup := (sorted_perm p).nodup_iff.mpr (nodup_all p)
  apply (hle.and hnodup).imp
  rintro t u ⟨hle, hne⟩
  have hkey : t.key ≠ u.key := fun h => hne (key_injective h)
  omega

end Threat

namespace Position.Consistent

/-- Of an occupied square the set of one color tells whose piece stands there. -/
theorem occupied_and_iff (hp : p.Consistent) {v : Color} :
    (s ∈ p.occupied ∧ v = if s ∈ p.occupiedBy c then c else c.opponent) ↔
      ∃ k, p.pieceAt? s = some (v, k) := by
  rw [← mem_occupiedBy_iff hp]
  constructor
  · rintro ⟨ho, rfl⟩
    split
    · assumption
    · next hc =>
      obtain ⟨c', hc'⟩ := hp.mem_occupied.mp ho
      rcases c'.eq_or_eq_opponent c with rfl | rfl
      · exact (hc hc').elim
      · exact hc'
  · intro hv
    refine ⟨hp.mem_occupied.mpr ⟨v, hv⟩, ?_⟩
    split
    · next hc =>
      obtain ⟨k, hk⟩ := hp.mem_occupiedBy.mp hv
      obtain ⟨k', hk'⟩ := hp.mem_occupiedBy.mp hc
      exact (hp.unique hk hk').1
    · next hc =>
      rcases v.eq_or_eq_opponent c with rfl | rfl
      · exact (hc hv).elim
      · rfl

/-- Looking outward from a piece and looking back from a square find the same attacks. -/
theorem attacks_iff_mem_attackers (hp : p.Consistent) (hs : p.pieceAt? s = some (c, k)) {u : Square} :
    u ∈ k.attacks c s p.occupied ↔ s ∈ p.attackers u c := by
  have hb : ∀ u, p.pieceAt? u ≠ none ↔ u ∈ p.occupied := fun u => pieceAt?_ne_none_iff hp
  rw [mem_attacks hb, mem_attackers hb]
  constructor
  · intro ha
    exact ⟨k, (pieceAt?_eq_some_iff hp).mp hs, ha⟩
  · rintro ⟨k', hk', ha⟩
    rw [← pieceAt?_eq_some_iff hp] at hk'
    obtain ⟨-, rfl⟩ := pair_unique hs hk'
    exact ha

end Position.Consistent

namespace Threat

open Position

/-- A threat is a piece, no stranded pawn, among the attackers of a square where a piece stands. -/
theorem mem_sorted_iff (hp : p.Consistent) : t ∈ sorted p ↔
    p.pieceAt? t.origin = some (t.color, t.piece) ∧ ¬ strandedPawn t.piece t.origin = true ∧
      (∃ k, p.pieceAt? t.target = some (t.victim, k)) ∧ t.origin ∈ p.attackers t.target t.color := by
  rw [(sorted_perm p).mem_iff, mem_all, mem_ofPiece, ← pieceAt?_eq_some_iff hp,
    hp.occupied_and_iff]
  apply and_congr_right
  intro hs
  rw [hp.attacks_iff_mem_attackers hs]
  tauto

end Threat

/-- The sorted threats of a position that a FEN tells rise strictly, and are the pieces, stranded
pawns apart, that looking back from each occupied square finds to attack it. -/
theorem Position.sorted_threats_are_attackers {text : String} (h : ofFen text = .ok p) :
    ((Threat.sorted p).Pairwise fun t u => t.key < u.key) ∧ ∀ t : Threat, t ∈ Threat.sorted p ↔
      p.pieceAt? t.origin = some (t.color, t.piece) ∧
      ¬ (t.piece = .pawn ∧
        (t.origin.rank = Square.firstRank ∨ t.origin.rank = Square.eighthRank)) ∧
      (∃ k, p.pieceAt? t.target = some (t.victim, k)) ∧
      t.origin ∈ p.attackers t.target t.color := by
  refine ⟨Threat.pairwise_sorted p, ?_⟩
  intro t
  rw [← Threat.strandedPawn_iff]
  exact Threat.mem_sorted_iff (sound_of_ofFen h).toConsistent

/-- The pawn on h1 attacks the knight without being a threat; the rook's view ends at its king. -/
theorem Position.sorted_threats_are_attackers_of_strandedPawn : ∃ p,
    ofFen "4k3/8/8/3p4/4P3/8/6n1/R3K2P w - - 0 1" = .ok p ∧
    7 ∈ p.attackers 14 .white ∧ ⟨.white, .pawn, 7, .black, 14⟩ ∉ Threat.sorted p ∧
    ⟨.white, .pawn, 28, .black, 35⟩ ∈ Threat.sorted p ∧
    ⟨.white, .rook, 0, .white, 4⟩ ∈ Threat.sorted p ∧
    ⟨.white, .rook, 0, .white, 7⟩ ∉ Threat.sorted p := by
  obtain ⟨p, hfen, h⟩ := exists_of_ofFen "4k3/8/8/3p4/4P3/8/6n1/R3K2P w - - 0 1"
    (fun p => p.pieceAt? 28 = some (.white, .pawn) ∧ p.pieceAt? 35 = some (.black, .pawn) ∧
      p.pieceAt? 0 = some (.white, .rook) ∧ p.pieceAt? 4 = some (.white, .king) ∧
      7 ∈ p.attackers 14 .white ∧ 28 ∈ p.attackers 35 .white ∧ 0 ∈ p.attackers 4 .white ∧
      0 ∉ p.attackers 7 .white) (by decide +kernel)
  obtain ⟨hpawn, hvictim, hrook, hking, hback, hpawns, hrooks, hhidden⟩ := of_decide_eq_true h
  have hmem := (sorted_threats_are_attackers hfen).2
  refine ⟨p, hfen, hback, ?_, ?_, ?_, ?_⟩
  · intro ht
    exact ((hmem _).mp ht).2.1 ⟨rfl, Or.inl rfl⟩
  · exact (hmem _).mpr ⟨hpawn, by decide, ⟨_, hvictim⟩, hpawns⟩
  · exact (hmem _).mpr ⟨hrook, by decide, ⟨_, hking⟩, hrooks⟩
  · intro ht
    exact hhidden ((hmem _).mp ht).2.2.2

end ChessEval
