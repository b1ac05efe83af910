import ChessEval.Proofs.Board.WellFormed

/-! Playing a permitted move: the change on the board is the one the rules tell, and taking the move
back restores the position. -/
namespace ChessEval

open Square Rules

variable {p : Position} {m : Move} {d : Change} {c : Color} {k : Piece} {s t v : Square}

/-- The change of a move is possible on the board and leads to the board of the rules. -/
structure Fits (p : Position) (m : Move) (d : Change) : Prop where
  change : p.change? m = some d
  lifted : d.lifted = d.removed
  exchangeable : p.Exchangeable d.removed d.added
  board : ∀ s, (p.exchange d.removed d.added).pieceAt? s = after p.pieceAt? p.turn m s

/-- An en passant capture that arrives on an empty square and takes no king. -/
def Tame (p : Position) (m : Move) : Prop :=
  m.kind = .enPassant → p.pieceAt? m.target = none ∧ ∀ c, p.pieceAt? (beside m) ≠ some (c, .king)

namespace Play

theorem behind?_eq_beside (h : PawnStep c m.origin m.target) :
    behind? c m.target = some (beside m) := by
  rw [behind?, step?_eq_some_iff]
  cases c <;> simp only [PawnStep, Off, Color.forward, beside, rank_ofCoords, file_ofCoords] at * <;>
    omega

theorem rookSquares_eq (m : Move) : rookSquares m.target = (rookHome m, rookGoal m) := by
  rw [rookSquares, rookHome, rookGoal]
  split <;> rfl

end Play

namespace Position

theorem change?_castle (hk : m.kind = .castle) (ho : p.pieceAt? m.origin = some (c, k)) :
    p.change? m = some (.castling ⟨p.turn, k, m.origin⟩ ⟨p.turn, .king, m.target⟩
      ⟨p.turn, .rook, rookHome m⟩ ⟨p.turn, .rook, rookGoal m⟩) := by
  simp [change?, ho, hk, Play.rookSquares_eq]

theorem change?_shift (hk : m.kind ≠ .castle) (ho : p.pieceAt? m.origin = some (c, k))
    (hv : Play.victimSquare? p.turn m = some v) (hn : p.pieceAt? v = none) :
    p.change? m = some (.shift ⟨p.turn, k, m.origin⟩
      ⟨p.turn, m.promoted?.getD k, m.target⟩) := by
  simp [change?, ho, hk, hv, hn]

theorem change?_capture {c' : Color} {k' : Piece} (hk : m.kind ≠ .castle)
    (ho : p.pieceAt? m.origin = some (c, k)) (hv : Play.victimSquare? p.turn m = some v)
    (hs : p.pieceAt? v = some (c', k')) :
    p.change? m = some (.capture ⟨p.turn, k, m.origin⟩
      ⟨p.turn, m.promoted?.getD k, m.target⟩ ⟨c', k', v⟩) := by
  simp [change?, ho, hk, hv, hs]

end Position

namespace Fits

theorem of_shift (hp : p.Consistent) (hk : m.kind ≠ .castle)
    (ho : p.pieceAt? m.origin = some (p.turn, k)) (hv : Play.victimSquare? p.turn m = some v)
    (hn : p.pieceAt? v = none) (ht : p.pieceAt? m.target = none)
    (ha : ∀ s, after p.pieceAt? p.turn m s = if s = m.target then some (p.turn, m.promoted?.getD k)
      else if s = m.origin then none else p.pieceAt? s) :
    ∃ d, Fits p m d := by
  have he : p.Exchangeable [⟨p.turn, k, m.origin⟩] [⟨p.turn, m.promoted?.getD k, m.target⟩] := by
    refine ⟨by simp, by simp, ?_, ?_, ?_⟩ <;> simp [ho, ht]
  refine ⟨_, Position.change?_shift hk ho hv hn, rfl, he, fun s => ?_⟩
  rw [ha]
  refine (he.pieceAt?_exchange_one hp s).trans ?_
  simp [eq_comm]

theorem of_capture {c' : Color} {k' : Piece} (hp : p.Consistent) (hk : m.kind ≠ .castle)
    (ho : p.pieceAt? m.origin = some (p.turn, k)) (hv : Play.victimSquare? p.turn m = some v)
    (hs : p.pieceAt? v = some (c', k')) (hne : v ≠ m.origin) (ht : p.pieceAt? m.target = none ∨ v = m.target)
    (ha : ∀ s, after p.pieceAt? p.turn m s = if s = m.target then some (p.turn, m.promoted?.getD k)
      else if s = m.origin ∨ s = v then none else p.pieceAt? s) :
    ∃ d, Fits p m d := by
  have he : p.Exchangeable [⟨p.turn, k, m.origin⟩, ⟨c', k', v⟩]
      [⟨p.turn, m.promoted?.getD k, m.target⟩] := by
    refine ⟨?_, by simp, ?_, ?_, ?_⟩
    · simp [hne.symm]
    · simp [ho, hs]
    · rcases ht with ht | rfl
      · simp [ht]
      · simp
    · simp
  refine ⟨_, Position.change?_capture hk ho hv hs, rfl, he, fun s => ?_⟩
  rw [ha]
  refine (he.pieceAt?_exchange_one hp s).trans ?_
  simp [eq_comm]

end Fits

namespace Rules

theorem beside_ne (h : PawnStep c m.origin m.target) :
    m.origin ≠ m.target ∧ beside m ≠ m.origin ∧ beside m ≠ m.target := by
  refine ⟨?_, ?_, ?_⟩ <;> intro hs
  · rw [hs] at h
    cases c <;> simp only [PawnStep, Off, Color.forward] at h <;> omega
  · have hf := congrArg file hs
    rw [beside, file_ofCoords] at hf
    rw [PawnStep, Off, Off, hf] at h
    omega
  · have hr := congrArg rank hs
    rw [beside, rank_ofCoords] at hr
    cases c <;> simp only [PawnStep, Off, Color.forward, hr] at h <;> omega

theorem Permitted.origin (h : Permitted p m) : ∃ k, p.pieceAt? m.origin = some (p.turn, k) := by
  cases h <;> exact ⟨_, by assumption⟩

theorem Permitted.target (h : Permitted p m) (he : m.kind ≠ .enPassant) :
    p.pieceAt? m.target = none ∨ ∃ k, p.pieceAt? m.target = some (p.turn.opponent, k) := by
  cases h with
  | enPassant => exact (he rfl).elim
  | quiet _ _ _ hn | push _ _ hn | doublePush _ _ _ _ _ hn | promotion _ _ hn => exact Or.inl hn
  | capture _ _ _ hs | pawnCapture _ _ hs | capturingPromotion _ _ hs => exact Or.inr ⟨_, hs⟩
  | castleKingside _ _ _ hn => exact Or.inl (hn _ (by simp))
  | castleQueenside _ _ _ hn => exact Or.inl (hn _ (by simp))

theorem Permitted.target_not_own (h : Permitted p m) (he : m.kind ≠ .enPassant) (k : Piece) :
    p.pieceAt? m.target ≠ some (p.turn, k) := by
  intro hk
  rcases h.target he with ht | ⟨k', ht⟩
  · rw [ht] at hk
    cases hk
  · exact Color.opponent_ne_self p.turn (pair_unique ht hk).1

/-- A castling takes king and rook from their squares to empty ones. -/
theorem Permitted.castle_squares (h : Permitted p m) (hc : m.kind = .castle) :
    p.pieceAt? m.origin = some (p.turn, .king) ∧ p.pieceAt? (rookHome m) = some (p.turn, .rook) ∧
      p.pieceAt? m.target = none ∧ p.pieceAt? (rookGoal m) = none ∧ m.target ≠ rookGoal m := by
  cases h with
  | castleKingside _ ho hr hn =>
    refine ⟨ho, ?_, hn _ (by simp), ?_, ?_⟩
    · simpa [rookHome] using hr
    · simpa [rookGoal] using hn Square.fileF (by simp)
    · simp [rookGoal, Square.fileF, Square.fileG]
  | castleQueenside _ ho hr hn =>
    refine ⟨ho, ?_, hn _ (by simp), ?_, ?_⟩
    · simpa [rookHome, Square.fileC, Square.fileG] using hr
    · simpa [rookGoal, Square.fileC, Square.fileG] using hn Square.fileD (by simp)
    · simp [rookGoal, Square.fileC, Square.fileD, Square.fileG]
  | _ => cases hc

theorem after_ordinary {b : Board} (hc : m.kind ≠ .castle) (he : m.kind ≠ .enPassant)
    (ho : b m.origin = some (c, k)) (s : Square) :
    after b c m s = if s = m.target then some (c, m.promoted?.getD k)
      else if s = m.origin then none else b s := by
  rw [after]
  cases hk : m.kind <;> simp_all [Move.promoted?]

end Rules

namespace Fits

theorem of_ordinary (hp : p.Consistent) (h : Permitted p m) (hc : m.kind ≠ .castle)
    (he : m.kind ≠ .enPassant) : ∃ d, Fits p m d := by
  obtain ⟨k, ho⟩ := h.origin
  have hv : Play.victimSquare? p.turn m = some m.target := by simp [Play.victimSquare?, he]
  have ha := after_ordinary hc he ho
  rcases h.target he with ht | ⟨k', ht⟩
  · exact of_shift hp hc ho hv ht ht ha
  · have hne : m.target ≠ m.origin := fun hs => h.target_not_own he k (hs ▸ ho)
    refine of_capture hp hc ho hv ht hne (Or.inr rfl) fun s => ?_
    rw [ha]
    split
    · rfl
    · next hs => simp [hs]

theorem of_enPassant (hp : p.Consistent) (h : Permitted p m) (he : m.kind = .enPassant)
    (ht : Tame p m) : ∃ d, Fits p m d := by
  obtain ⟨hn, -⟩ := ht he
  cases h with
  | @enPassant s t ho _ hstep =>
    have hb := Play.behind?_eq_beside (m := ⟨s, t, .enPassant⟩) hstep
    have hv : Play.victimSquare? p.turn ⟨s, t, .enPassant⟩ = some (beside ⟨s, t, .enPassant⟩) := by
      simpa [Play.victimSquare?] using hb
    cases hs : p.pieceAt? (beside ⟨s, t, .enPassant⟩) with
    | none =>
      refine of_shift hp (by simp) ho hv hs hn fun u => ?_
      simp only [after, Move.promoted?, Option.getD_none, ho]
      split
      · rfl
      · by_cases hu : u = beside ⟨s, t, .enPassant⟩
        · simp [hu, hs]
        · simp [hu]
    | some x =>
      refine of_capture hp (by simp) ho hv hs (beside_ne hstep).2.1 (Or.inl hn) fun u => ?_
      simp only [after, Move.promoted?, Option.getD_none, ho]
  | _ => cases he

theorem of_castle (hp : p.Consistent) (h : Permitted p m) (hc : m.kind = .castle) :
    ∃ d, Fits p m d := by
  obtain ⟨ho, hr, ht, hg, hne⟩ := h.castle_squares hc
  let off : List Placed := [⟨p.turn, .king, m.origin⟩, ⟨p.turn, .rook, rookHome m⟩]
  let on : List Placed := [⟨p.turn, .king, m.target⟩, ⟨p.turn, .rook, rookGoal m⟩]
  have he : p.Exchangeable off on := by
    refine ⟨by simp [off], by simp [on], ?_, ?_, ?_⟩
    · simp [off, ho, hr]
    · simp [on, ht, hg]
    · simp [on, hne, hne.symm]
  have hon : ∀ s, (∀ y ∈ on, y.square ≠ s) ↔ s ≠ m.target ∧ s ≠ rookGoal m := by
    intro s
    simp [on, eq_comm]
  have hoff : ∀ s, (∀ y ∈ off, y.square ≠ s) ↔ s ≠ m.origin ∧ s ≠ rookHome m := by
    intro s
    simp [off, eq_comm]
  refine ⟨_, Position.change?_castle hc ho, rfl, he, fun s => ?_⟩
  change (p.exchange off on).pieceAt? s = _
  simp only [after, hc]
  split
  · next hs =>
    rw [hs]
    exact he.pieceAt?_of_mem_on (x := ⟨p.turn, .king, m.target⟩) hp (by simp [on])
  · next hs =>
    split
    · next hs' =>
      rw [hs']
      exact he.pieceAt?_of_mem_on (x := ⟨p.turn, .rook, rookGoal m⟩) hp (by simp [on])
    · next hs' =>
      split
      · next hs'' =>
        have hn := (hon s).mpr ⟨hs, hs'⟩
        rcases hs'' with rfl | rfl
        · exact he.pieceAt?_of_mem_off (x := ⟨p.turn, .king, m.origin⟩) hp (by simp [off]) hn
        · exact he.pieceAt?_of_mem_off (x := ⟨p.turn, .rook, rookHome m⟩) hp (by simp [off]) hn
      · next hs'' =>
        exact he.pieceAt?_of_not_mem hp ((hon s).mpr ⟨hs, hs'⟩) ((hoff s).mpr (not_or.mp hs''))

/-- Every permitted move fits, an en passant capture if it is tame. -/
theorem of_permitted (hp : p.Consistent) (h : Permitted p m) (ht : Tame p m) :
    ∃ d, Fits p m d := by
  by_cases hc : m.kind = .castle
  · exact of_castle hp h hc
  · by_cases he : m.kind = .enPassant
    · exact of_enPassant hp h he ht
    · exact of_ordinary hp h hc he

end Fits

/-- What playing a move gives, when the move fits. -/
structure Played (p : Position) (m : Move) (k : Piece) (next : Position) (undo : Undo) : Prop where
  play : p.play? m = some (next, undo)
  origin : p.pieceAt? m.origin = some (p.turn, k)
  fits : Fits p m undo.change
  same : next.SameBoard (p.exchange undo.change.removed undo.change.added)
  turn : next.turn = p.turn.opponent
  enPassant : next.enPassant = Position.enPassantAfter m k
  takeBack : next.takeBack undo = p

/-- Taking back restores every field but the board from the record. -/
theorem Position.takeBack_eq {next q : Position}
    (hb : (next.exchange d.added d.removed).SameBoard q) (ht : next.turn = p.turn.opponent)
    (hq : { p with white := q.white, black := q.black, occupied := q.occupied } = q) :
    next.takeBack ⟨p.enPassant, p.castling, p.hash, p.halfmoves, p.fullmoves, d⟩ = q := by
  have hw : (next.exchange d.added d.removed).white = q.white := hb.army .white
  have hb' : (next.exchange d.added d.removed).black = q.black := hb.army .black
  rw [takeBack, hw, hb', hb.occupied, ht, Color.opponent_opponent]
  exact hq

theorem Position.play?_eq_some (ho : p.pieceAt? m.origin = some (c, k))
    (hd : p.change? m = some d) :
    ∃ next, p.play? m = some (next, ⟨p.enPassant, p.castling, p.hash, p.halfmoves,
      p.fullmoves, d⟩) ∧ next.SameBoard (p.exchange d.lifted d.added) ∧
      next.turn = p.turn.opponent ∧ next.enPassant = enPassantAfter m k := by
  simp only [play?, ho, hd, Option.bind_eq_bind, Option.bind_some, Option.pure_def]
  exact ⟨_, rfl, ⟨fun c => by cases c <;> rfl, rfl⟩, rfl, rfl⟩

theorem Position.origin_of_play? {x : Position × Undo} (h : p.play? m = some x) :
    p.pieceAt? m.origin ≠ none := by
  intro ho
  rw [play?, ho] at h
  cases h

/-- A move whose change is reversible can be played, and taking it back restores the position. -/
theorem Position.exists_play (ho : p.pieceAt? m.origin = some (c, k)) (hd : p.change? m = some d)
    (hl : d.lifted = d.removed) (hr : p.Reversible d.removed d.added) :
    ∃ next undo, p.play? m = some (next, undo) ∧ undo.change = d ∧
      next.SameBoard (p.exchange d.removed d.added) ∧ next.turn = p.turn.opponent ∧
      next.enPassant = enPassantAfter m k ∧ next.takeBack undo = p := by
  obtain ⟨next, hn, hs, ht, he⟩ := play?_eq_some ho hd
  rw [hl] at hs
  have hb := (hs.exchange d.added d.removed).trans hr.exchange_back
  exact ⟨next, _, hn, rfl, hs, ht, he, takeBack_eq hb ht rfl⟩

theorem Fits.exists_played (hp : p.Consistent) (h : Fits p m d)
    (ho : p.pieceAt? m.origin = some (p.turn, k)) : ∃ next undo, Played p m k next undo := by
  obtain ⟨next, undo, hn, rfl, hs, ht, he, hb⟩ :=
    Position.exists_play ho h.change h.lifted (h.exchangeable.reversible hp)
  exact ⟨next, undo, hn, ho, h, hs, ht, he, hb⟩

theorem Rules.Permitted.exists_played (h : Permitted p m) (hp : p.Consistent) (ht : Tame p m) :
    ∃ k next undo, Played p m k next undo := by
  obtain ⟨d, hd⟩ := Fits.of_permitted hp h ht
  obtain ⟨k, ho⟩ := h.origin
  exact ⟨k, hd.exists_played hp ho⟩

namespace Played

variable {next : Position} {undo : Undo}

theorem consistent (h : Played p m k next undo) (hp : p.Consistent) : next.Consistent :=
  h.same.consistent (h.fits.exchangeable.consistent hp)

/-- Playing a move gives the board of the rules. -/
theorem pieceAt? (h : Played p m k next undo) : next.pieceAt? = after p.pieceAt? p.turn m := by
  funext s
  rw [h.same.pieceAt?, h.fits.board]

end Played

end ChessEval
