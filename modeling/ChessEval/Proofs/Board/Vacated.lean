import ChessEval.Proofs.Board.LegalMoves

/-! The board on which the candidates of a position are tried one after another, when nothing is
known about its en passant square: taking back a capture onto that square leaves it vacated. -/
namespace ChessEval

open Square Rules

variable {p q next : Position} {undo : Undo} {m : Move} {c : Color} {k : Piece} {s t : Square}
  {d : Change} {off on : List Placed}

namespace Position

/-- The position with a square no longer counted as occupied, as the mover's or as a pawn's of the
mover. -/
def vacated (p : Position) (t : Square) : Position := p.exchange [⟨p.turn, .pawn, t⟩] []

theorem vacated_eq (p : Position) (t : Square) : { p with
    white := (p.vacated t).white
    black := (p.vacated t).black
    occupied := (p.vacated t).occupied } = p.vacated t := by
  rcases p with ⟨white, black, occupied, turn⟩
  cases turn <;> rfl

@[simp] theorem turn_vacated (p : Position) (t : Square) : (p.vacated t).turn = p.turn :=
  (congrArg turn (vacated_eq p t)).symm

theorem mem_pieces_vacated :
    s ∈ (p.vacated t).pieces c k ↔ s ∈ p.pieces c k ∧ ¬ (c = p.turn ∧ k = .pawn ∧ s = t) := by
  simp [vacated, mem_pieces_exchange]

theorem mem_occupiedBy_vacated :
    s ∈ (p.vacated t).occupiedBy c ↔ s ∈ p.occupiedBy c ∧ ¬ (c = p.turn ∧ s = t) := by
  simp [vacated, mem_occupiedBy_exchange]

theorem mem_occupied_vacated : s ∈ (p.vacated t).occupied ↔ s ∈ p.occupied ∧ s ≠ t := by
  simp [vacated, mem_occupied_exchange, eq_comm]

theorem pieceAt?_vacated (hs : s ≠ t) : (p.vacated t).pieceAt? s = p.pieceAt? s := by
  simp only [pieceAt?, mem_occupied_vacated, mem_occupiedBy_vacated, mem_pieces_vacated, hs,
    and_false, not_false_eq_true, and_true, ne_eq]

theorem pieceAt?_vacated_self : (p.vacated t).pieceAt? t = none := by
  rw [pieceAt?, if_neg fun h => (mem_occupied_vacated.mp h).2 rfl]

theorem pieceAt?_vacated_eq_none_iff (hp : p.Consistent) :
    (p.vacated t).pieceAt? s = none ↔ s ∉ (p.vacated t).occupied := by
  rw [mem_occupied_vacated]
  by_cases hs : s = t
  · simp [hs, pieceAt?_vacated_self]
  · rw [pieceAt?_vacated hs, pieceAt?_eq_none_iff hp]
    simp [hs]

/-- The piece is counted on its square in every set. -/
structure Counts (p : Position) (x : Placed) : Prop where
  pieces : x.square ∈ p.pieces x.color x.piece
  occupiedBy : x.square ∈ p.occupiedBy x.color
  occupied : x.square ∈ p.occupied

theorem counts_vacated (hp : p.Consistent) (hs : p.pieceAt? s = some (c, k)) (ht : s ≠ t) :
    (p.vacated t).Counts ⟨c, k, s⟩ := by
  rw [pieceAt?_eq_some_iff hp] at hs
  have ho : s ∈ p.occupiedBy c := hp.mem_occupiedBy.mpr ⟨k, hs⟩
  refine ⟨mem_pieces_vacated.mpr ⟨hs, fun h => ht h.2.2⟩,
    mem_occupiedBy_vacated.mpr ⟨ho, fun h => ht h.2⟩,
    mem_occupied_vacated.mpr ⟨hp.mem_occupied.mpr ⟨c, ho⟩, ht⟩⟩

theorem not_counted_vacated (hp : p.Consistent) (hs : ∀ k, p.pieceAt? s ≠ some (c, k)) :
    (∀ k, s ∉ (p.vacated t).pieces c k) ∧ s ∉ (p.vacated t).occupiedBy c := by
  simp only [ne_eq, pieceAt?_eq_some_iff hp] at hs
  refine ⟨fun k h => hs k (mem_pieces_vacated.mp h).1, fun h => ?_⟩
  obtain ⟨k, hk⟩ := hp.mem_occupiedBy.mp (mem_occupiedBy_vacated.mp h).1
  exact hs k hk

theorem reversible_of_counts (hoff : ∀ x ∈ off, p.Counts x)
    (hon : ∀ x ∈ on, x.square ∉ p.pieces x.color x.piece ∧ x.square ∉ p.occupiedBy x.color)
    (ho : ∀ x ∈ on, x.square ∈ p.occupied → ∃ y ∈ off, y.square = x.square) :
    p.Reversible off on where
  pieces hx := (hoff _ hx).pieces
  occupiedBy hx := (hoff _ hx).occupiedBy
  occupied hx := (hoff _ hx).occupied
  pieces_on hx hs := ((hon _ hx).1 hs).elim
  occupiedBy_on hx hs := ((hon _ hx).2 hs).elim
  occupied_on hx hs := ho _ hx hs

end Position

/-- A change that a move makes on some board and that can be taken back there. -/
structure Changes (q : Position) (m : Move) (k : Piece) (d : Change) : Prop where
  origin : ∃ c, q.pieceAt? m.origin = some (c, k)
  change : q.change? m = some d
  lifted : d.lifted = d.removed
  reversible : q.Reversible d.removed d.added

theorem Changes.exists_play (h : Changes q m k d) : ∃ next undo, q.play? m = some (next, undo) ∧
    next.SameBoard (q.exchange d.removed d.added) ∧ next.takeBack undo = q := by
  obtain ⟨c, ho⟩ := h.origin
  obtain ⟨next, undo, hplay, -, hs, -, -, hback⟩ :=
    Position.exists_play ho h.change h.lifted h.reversible
  exact ⟨next, undo, hplay, hs, hback⟩

namespace Position

theorem king?_ne_none_iff : p.king? c ≠ none ↔ ∃ s, s ∈ p.pieces c .king := by
  rw [king?, ne_eq, Bitboard.first?_eq_none_iff, not_forall_not]

/-- A color keeps its king through an exchange that puts a king where it takes one. -/
theorem exists_king_exchange (hs : s ∈ p.pieces c .king)
    (h : ⟨c, .king, s⟩ ∈ off → ∃ t, ⟨c, .king, t⟩ ∈ on) :
    ∃ t, t ∈ (p.exchange off on).pieces c .king := by
  simp only [mem_pieces_exchange]
  by_cases hoff : ⟨c, .king, s⟩ ∈ off
  · obtain ⟨t, ht⟩ := h hoff
    exact ⟨t, Or.inl ht⟩
  · exact ⟨s, Or.inr ⟨hs, hoff⟩⟩

end Position

namespace Rules

theorem rank_ne_of_pawnStep (h : PawnStep c s t) : t.rank ≠ c.backRank := by
  intro hr
  have := s.rank.isLt
  cases c <;> simp only [PawnStep, Off, Color.forward, Color.backRank, firstRank, eighthRank] at h hr <;>
    rw [hr] at h <;> simp only at h <;> omega

theorem Permitted.castle_rank (h : Permitted p m) (hc : m.kind = .castle) :
    m.target.rank = p.turn.backRank := by
  cases h with
  | castleKingside | castleQueenside => exact rank_ofCoords _ _
  | _ => cases hc

end Rules

theorem Position.Sound.exists_king_vacated (hp : p.Sound) (t : Square) :
    ∃ s, s ∈ (p.vacated t).pieces p.turn .king := by
  obtain ⟨s, -, hs⟩ := hp.exists_king p.turn
  exact ⟨s, mem_pieces_vacated.mpr
    ⟨(pieceAt?_eq_some_iff hp.toConsistent).mp ((hs s).mpr rfl), by simp⟩⟩

section Ordinary

variable (hp : p.Sound) (hm : Permitted p m) (hstep : ∃ s, PawnStep p.turn s t)
  (ho : m.origin ≠ t)

include hp hm hstep ho

theorem exists_changes_castle (hc : m.kind = .castle) : ∃ k d, Changes (p.vacated t) m k d ∧
    ∃ s, s ∈ ((p.vacated t).exchange d.removed d.added).pieces p.turn .king := by
  obtain ⟨s, hstep⟩ := hstep
  obtain ⟨hking, hr, ht, hg, -⟩ := hm.castle_squares hc
  have hrt : rookHome m ≠ t := by
    rintro rfl
    exact rank_ne_of_pawnStep hstep ((rank_ofCoords _ _).trans (hm.castle_rank hc))
  have hking' := (Position.pieceAt?_vacated ho).trans hking
  have hat : ∀ k, p.pieceAt? m.target ≠ some (p.turn, k) := by simp [ht]
  have hag : ∀ k, p.pieceAt? (rookGoal m) ≠ some (p.turn, k) := by simp [hg]
  have hot : m.target ∉ p.occupied := (Position.pieceAt?_eq_none_iff hp.toConsistent).mp ht
  have hog : rookGoal m ∉ p.occupied := (Position.pieceAt?_eq_none_iff hp.toConsistent).mp hg
  have hcat := Position.not_counted_vacated (t := t) hp.toConsistent hat
  have hcag := Position.not_counted_vacated (t := t) hp.toConsistent hag
  refine ⟨.king, _, ⟨⟨_, hking'⟩, Position.change?_castle hc hking', rfl, ?_⟩, m.target, ?_⟩
  · refine Position.reversible_of_counts ?_ ?_ ?_
    · simp only [Change.removed, Position.turn_vacated, List.forall_mem_cons, List.not_mem_nil,
        false_implies, implies_true, and_true]
      exact ⟨Position.counts_vacated hp.toConsistent hking ho,
        Position.counts_vacated hp.toConsistent hr hrt⟩
    · simp only [Change.added, Position.turn_vacated, List.forall_mem_cons, List.not_mem_nil,
        false_implies, implies_true, and_true]
      exact ⟨⟨hcat.1 _, hcat.2⟩, ⟨hcag.1 _, hcag.2⟩⟩
    · simp only [Change.added, List.forall_mem_cons, List.not_mem_nil, false_implies, implies_true,
        and_true, Position.mem_occupied_vacated]
      exact ⟨fun h => (hot h.1).elim, fun h => (hog h.1).elim⟩
  · exact Position.mem_pieces_exchange.mpr (Or.inl (by simp [Change.added]))

omit hstep in
theorem exists_changes_shift (hc : m.kind ≠ .castle) (he : m.kind ≠ .enPassant)
    (hk : p.pieceAt? m.origin = some (p.turn, k)) (ht : (p.vacated t).pieceAt? m.target = none) :
    ∃ d, Changes (p.vacated t) m k d ∧
      ∃ s, s ∈ ((p.vacated t).exchange d.removed d.added).pieces p.turn .king := by
  obtain ⟨s, hking⟩ := hp.exists_king_vacated t
  have hk' := (Position.pieceAt?_vacated ho).trans hk
  have hv : Play.victimSquare? (p.vacated t).turn m = some m.target := by
    simp [Play.victimSquare?, he]
  have hcat := Position.not_counted_vacated (t := t) hp.toConsistent (hm.target_not_own he)
  have hot := (Position.pieceAt?_vacated_eq_none_iff hp.toConsistent).mp ht
  have hpromoted := hm.promoted_king_iff hk
  refine ⟨_, ⟨⟨_, hk'⟩, Position.change?_shift hc hk' hv ht, rfl, ?_⟩, ?_⟩
  · refine Position.reversible_of_counts ?_ ?_ ?_
    · simpa [Change.removed] using Position.counts_vacated hp.toConsistent hk ho
    · simp [Change.added, hcat]
    · simp [Change.added, hot]
  · refine Position.exists_king_exchange hking fun h => ⟨m.target, ?_⟩
    simp_all [Change.removed, Change.added]

omit hstep in
theorem exists_changes_capture {c' : Color} {k' : Piece} (hc : m.kind ≠ .castle)
    (he : m.kind ≠ .enPassant) (hk : p.pieceAt? m.origin = some (p.turn, k))
    (ht : (p.vacated t).pieceAt? m.target = some (c', k')) :
    ∃ d, Changes (p.vacated t) m k d ∧
      ∃ s, s ∈ ((p.vacated t).exchange d.removed d.added).pieces p.turn .king := by
  obtain ⟨s, hking⟩ := hp.exists_king_vacated t
  have hk' := (Position.pieceAt?_vacated ho).trans hk
  have hv : Play.victimSquare? (p.vacated t).turn m = some m.target := by
    simp [Play.victimSquare?, he]
  have hcat := Position.not_counted_vacated (t := t) hp.toConsistent (hm.target_not_own he)
  have hne : m.target ≠ t := by
    rintro rfl
    rw [Position.pieceAt?_vacated_self] at ht
    cases ht
  have ht' := (Position.pieceAt?_vacated hne).symm.trans ht
  have hc' : c' ≠ p.turn := by
    rintro rfl
    exact hm.target_not_own he k' ht'
  refine ⟨_, ⟨⟨_, hk'⟩, Position.change?_capture hc hk' hv ht, rfl, ?_⟩, ?_⟩
  · refine Position.reversible_of_counts ?_ ?_ ?_
    · simpa [Change.removed] using ⟨Position.counts_vacated hp.toConsistent hk ho,
        Position.counts_vacated hp.toConsistent ht' hne⟩
    · simp [Change.added, hcat]
    · simp [Change.added, Change.removed]
  · refine Position.exists_king_exchange hking fun h => ⟨m.target, ?_⟩
    simp only [Change.removed, List.mem_cons, Placed.mk.injEq, hc'.symm, false_and, or_false,
      List.not_mem_nil] at h
    simp [Change.added, (hm.promoted_king_iff hk).mpr h.2.1.symm]

theorem exists_changes (he : m.kind ≠ .enPassant) : ∃ k d, Changes (p.vacated t) m k d ∧
    ∃ s, s ∈ ((p.vacated t).exchange d.removed d.added).pieces p.turn .king := by
  by_cases hc : m.kind = .castle
  · exact exists_changes_castle hp hm hstep ho hc
  · obtain ⟨k, hk⟩ := hm.origin
    cases ht : (p.vacated t).pieceAt? m.target with
    | none => exact ⟨k, exists_changes_shift hp hm ho hc he hk ht⟩
    | some x => exact ⟨k, exists_changes_capture hp hm ho hc he hk ht⟩

end Ordinary

/-- The board after an en passant capture, with no care for what stood where the pawn arrives. -/
structure AfterEnPassant (p : Position) (m : Move) (next : Position) : Prop where
  mem_pieces : ∀ {c k s}, s ∈ next.pieces c k ↔ (c = p.turn ∧ k = .pawn ∧ s = m.target) ∨
    (s ∈ p.pieces c k ∧ s ≠ m.origin ∧ s ≠ beside m)
  mem_occupied : ∀ {s}, s ∈ next.occupied ↔ after p.pieceAt? p.turn m s ≠ none

/-- The change of an en passant capture takes what stands on the origin and beside it. -/
structure EnPassantChange (p : Position) (m : Move) (d : Change) : Prop where
  change : ∀ q : Position, q.turn = p.turn → q.pieceAt? m.origin = p.pieceAt? m.origin →
    q.pieceAt? (beside m) = p.pieceAt? (beside m) → q.change? m = some d
  lifted : d.lifted = d.removed
  mem_removed : ∀ {c k s}, ⟨c, k, s⟩ ∈ d.removed ↔
    (s = m.origin ∨ s = beside m) ∧ p.pieceAt? s = some (c, k)
  added : d.added = [⟨p.turn, .pawn, m.target⟩]

namespace Rules

theorem Permitted.of_enPassant (hm : Permitted p m) (he : m.kind = .enPassant) :
    p.pieceAt? m.origin = some (p.turn, .pawn) ∧ p.enPassant = some m.target ∧
      PawnStep p.turn m.origin m.target := by
  cases hm with
  | enPassant ho ht hstep => exact ⟨ho, ht, hstep⟩
  | _ => cases he

end Rules

theorem exists_enPassantChange (hm : Permitted p m) (he : m.kind = .enPassant) :
    ∃ d, EnPassantChange p m d := by
  obtain ⟨ho, -, hstep⟩ := hm.of_enPassant he
  obtain ⟨-, hb, -⟩ := beside_ne hstep
  have hc : m.kind ≠ .castle := by simp [he]
  have hpromoted : m.promoted? = none := by simp [Move.promoted?, he]
  have hv : ∀ q : Position, q.turn = p.turn →
      Play.victimSquare? q.turn m = some (beside m) := fun q ht => by
    rw [ht, Play.victimSquare?, if_pos he, Play.behind?_eq_beside hstep]
  cases hs : p.pieceAt? (beside m) with
  | none =>
    refine ⟨.shift ⟨p.turn, .pawn, m.origin⟩ ⟨p.turn, .pawn, m.target⟩, fun q ht hqo hqb => ?_, rfl,
      ?_, rfl⟩
    · rw [Position.change?_shift hc (hqo.trans ho) (hv q ht) (hqb.trans hs), ht, hpromoted]
      rfl
    · intro c k s
      simp only [Change.removed, List.mem_singleton, Placed.mk.injEq]
      constructor
      · rintro ⟨rfl, rfl, rfl⟩
        exact ⟨Or.inl rfl, ho⟩
      · rintro ⟨rfl | rfl, h⟩
        · simp_all
        · rw [hs] at h
          cases h
  | some x =>
    obtain ⟨c', k'⟩ := x
    refine ⟨.capture ⟨p.turn, .pawn, m.origin⟩ ⟨p.turn, .pawn, m.target⟩ ⟨c', k', beside m⟩,
      fun q ht hqo hqb => ?_, rfl, ?_, rfl⟩
    · rw [Position.change?_capture hc (hqo.trans ho) (hv q ht) (hqb.trans hs), ht, hpromoted]
      rfl
    · intro c k s
      simp only [Change.removed, List.mem_cons, List.not_mem_nil, or_false, Placed.mk.injEq]
      constructor
      · rintro (⟨rfl, rfl, rfl⟩ | ⟨rfl, rfl, rfl⟩)
        · exact ⟨Or.inl rfl, ho⟩
        · exact ⟨Or.inr rfl, hs⟩
      · rintro ⟨rfl | rfl, h⟩
        · simp_all
        · simp_all

/-- Pieces that are put on a board need not be taken off it first. -/
theorem Position.exchange_vacated (p : Position) (off : List Placed) (t : Square) :
    ((p.vacated t).exchange off [⟨p.turn, .pawn, t⟩]).SameBoard
      (p.exchange off [⟨p.turn, .pawn, t⟩]) := by
  refine SameBoard.of_mem ?_ ?_ ?_ <;> intros
  · simp only [mem_pieces_exchange, mem_pieces_vacated, List.mem_singleton, Placed.mk.injEq]
    tauto
  · simp only [mem_occupiedBy_exchange, mem_occupiedBy_vacated, List.mem_singleton, Placed.mk.injEq]
    simp
    tauto
  · simp only [mem_occupied_exchange, mem_occupied_vacated, List.mem_singleton]
    simp
    tauto

theorem EnPassantChange.reversible (h : EnPassantChange p m d) (hp : p.Consistent)
    (hm : Permitted p m) (he : m.kind = .enPassant) :
    (p.vacated m.target).Reversible d.removed d.added := by
  obtain ⟨hne, -, hb⟩ := beside_ne (hm.of_enPassant he).2.2
  rw [h.added]
  refine Position.reversible_of_counts ?_ ?_ ?_
  · rintro ⟨c, k, s⟩ hx
    obtain ⟨rfl | rfl, hs⟩ := h.mem_removed.mp hx
    · exact Position.counts_vacated hp hs hne
    · exact Position.counts_vacated hp hs hb
  · simp [Position.mem_pieces_vacated, Position.mem_occupiedBy_vacated]
  · simp [Position.mem_occupied_vacated]

theorem EnPassantChange.afterEnPassant (h : EnPassantChange p m d) (hp : p.Consistent)
    (hm : Permitted p m) (he : m.kind = .enPassant)
    (hs : next.SameBoard (p.exchange d.removed d.added)) : AfterEnPassant p m next := by
  obtain ⟨ho, -, hstep⟩ := hm.of_enPassant he
  refine ⟨fun {c k s} => ?_, fun {s} => ?_⟩
  · rw [hs.pieces, Position.mem_pieces_exchange, h.added, h.mem_removed,
      Position.pieceAt?_eq_some_iff hp, List.mem_singleton, Placed.mk.injEq]
    tauto
  · rw [hs.occupied, Position.mem_occupied_exchange, h.added, after, he,
      ← Position.pieceAt?_ne_none_iff hp]
    by_cases ht : s = m.target
    · simp [ht, ho]
    · by_cases hob : s = m.origin ∨ s = beside m
      · simp only [List.mem_singleton, exists_eq_left, Ne.symm ht, false_or, ht, if_false, hob,
          if_true, ne_eq, not_true_eq_false, iff_false, not_and]
        intro hn hoff
        obtain ⟨⟨c, k⟩, hx⟩ := Option.ne_none_iff_exists'.mp hn
        exact hoff _ (h.mem_removed.mpr ⟨hob, hx⟩) rfl
      · simp only [List.mem_singleton, exists_eq_left, Ne.symm ht, false_or, ht, if_false, hob,
          and_iff_left_iff_imp]
        rintro - ⟨c, k, s'⟩ hx rfl
        exact hob (h.mem_removed.mp hx).1

/-- Trying an en passant capture, on the position or on what such a trial leaves, always works and
leaves the target vacated. -/
theorem exists_enPassant_trial (hp : p.Consistent) (hm : Permitted p m) (he : m.kind = .enPassant)
    (hq : q = p ∨ q = p.vacated m.target) :
    ∃ next undo, q.play? m = some (next, undo) ∧ next.takeBack undo = p.vacated m.target ∧
      AfterEnPassant p m next := by
  obtain ⟨ho, -, hstep⟩ := hm.of_enPassant he
  obtain ⟨hne, -, hb⟩ := beside_ne hstep
  obtain ⟨d, hd⟩ := exists_enPassantChange hm he
  have hqt : q.turn = p.turn := by rcases hq with rfl | rfl <;> simp
  have hqs : ∀ s, s ≠ m.target → q.pieceAt? s = p.pieceAt? s := fun s hs => by
    rcases hq with rfl | rfl
    · rfl
    · exact Position.pieceAt?_vacated hs
  have hqv : (q.exchange d.removed d.added).SameBoard
      ((p.vacated m.target).exchange d.removed d.added) := by
    rw [hd.added]
    rcases hq with rfl | rfl
    · exact (Position.exchange_vacated _ _ _).symm
    · exact ⟨fun _ => rfl, rfl⟩
  have hqw : { q with
      white := (p.vacated m.target).white
      black := (p.vacated m.target).black
      occupied := (p.vacated m.target).occupied } = p.vacated m.target := by
    rcases hq with rfl | rfl
    · exact Position.vacated_eq _ _
    · rfl
  obtain ⟨next, hplay, hs, ht, -⟩ := Position.play?_eq_some ((hqs _ hne).trans ho)
    (hd.change q hqt (hqs _ hne) (hqs _ hb))
  rw [hd.lifted] at hs
  have hsv := hs.trans hqv
  have hback := (hsv.exchange d.added d.removed).trans (hd.reversible hp hm he).exchange_back
  refine ⟨next, _, hplay, Position.takeBack_eq hback ht hqw, hd.afterEnPassant hp hm he ?_⟩
  refine hsv.trans ?_
  rw [hd.added]
  exact Position.exchange_vacated _ _ _

end ChessEval
