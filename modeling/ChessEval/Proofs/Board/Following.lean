import ChessEval.Proofs.Board.Playing

/-! A legal move leads from a well-formed position to a well-formed one. -/
namespace ChessEval

open Square Rules

variable {p next : Position} {undo : Undo} {m : Move} {c : Color} {k : Piece} {s t v : Square}

namespace Square

theorem Off.ne_of_forward (h : s.Off (c.forward, 0) t) : s ≠ t := by
  rintro rfl
  have := h.1
  cases c <;> simp only [Color.forward] at this <;> omega

theorem skipped_eq (hu : s.Off (c.forward, 0) v) (ht : v.Off (c.forward, 0) t) :
    Play.skipped s t = v := by
  have hu := val_eq_of_off hu
  have ht := val_eq_of_off ht
  refine Fin.ext ?_
  change (s.val + t.val) / 2 = v.val
  dsimp only at hu ht
  omega

end Square

namespace Rules

/-- Only a king arrives as a king. -/
theorem Permitted.promoted_king_iff (h : Permitted p m) (ho : p.pieceAt? m.origin = some (c, k)) :
    m.promoted?.getD k = .king ↔ k = .king := by
  cases h with
  | promotion hs _ _ _ hk | capturingPromotion hs _ _ _ hk =>
    obtain ⟨-, rfl⟩ := pair_unique hs ho
    simp only [Move.promoted?, Option.getD_some, reduceCtorEq, iff_false]
    rintro rfl
    simp at hk
  | _ => simp [Move.promoted?]

/-- No king stands where a permitted move arrives. -/
theorem Permitted.target_ne_king (h : Permitted p m) (ht : Tame p m)
    (hk : p.pieceAt? m.target ≠ some (p.turn.opponent, .king)) (c : Color) :
    p.pieceAt? m.target ≠ some (c, .king) := by
  by_cases he : m.kind = .enPassant
  · simp [(ht he).1]
  · rcases h.target he with hn | ⟨k, hs⟩
    · simp [hn]
    · rintro hs'
      obtain ⟨rfl, -⟩ := pair_unique hs' hs
      exact hk hs'

theorem king_after_castle (hp : p.Sound) (h : Permitted p m) (hc : m.kind = .castle) :
    after p.pieceAt? p.turn m s = some (c, .king) ↔
      if c = p.turn then s = m.target else p.pieceAt? s = some (c, .king) := by
  obtain ⟨ho, hr, ht, hg, hne⟩ := h.castle_squares hc
  have hu : p.pieceAt? s = some (p.turn, .king) → s = m.origin := fun hs => hp.king_unique hs ho
  simp only [after, hc]
  split
  · next hs => simp [hs, ht, eq_comm]
  · next hs =>
    split
    · next hs' => simp [hs', hg, hne.symm]
    · next hs' =>
      split
      · next hs'' =>
        rcases hs'' with rfl | rfl
        · simp [ho, hs, eq_comm]
        · simp [hr, hs]
      · next hs'' =>
        split
        · next hc =>
          subst hc
          exact iff_of_false (fun hs' => hs'' (Or.inl (hu hs'))) hs
        · rfl

theorem king_after_step (hp : p.Sound) (ho : p.pieceAt? m.origin = some (p.turn, k))
    (hk : m.promoted?.getD k = .king ↔ k = .king)
    (ha : after p.pieceAt? p.turn m s = if s = m.target then some (p.turn, m.promoted?.getD k)
      else if s = m.origin ∨ s = v then none else p.pieceAt? s)
    (ht : ∀ c, p.pieceAt? m.target ≠ some (c, .king)) (hv : ∀ c, p.pieceAt? v ≠ some (c, .king)) :
    after p.pieceAt? p.turn m s = some (c, .king) ↔
      if c = p.turn ∧ p.pieceAt? m.origin = some (p.turn, .king) then s = m.target
      else p.pieceAt? s = some (c, .king) := by
  have hu : p.pieceAt? m.origin = some (p.turn, .king) → p.pieceAt? s = some (p.turn, .king) →
      s = m.origin := fun ho hs => hp.king_unique hs ho
  rw [ha]
  by_cases hs : s = m.target
  · subst hs
    have hc : p.turn = c ∧ m.promoted?.getD k = .king ↔ c = p.turn ∧ k = .king :=
      and_congr eq_comm hk
    simp [ht, ho, hc]
  · by_cases hs' : s = m.origin ∨ s = v
    · rcases hs' with rfl | rfl
      · simp [hs, ho, eq_comm]
      · simp [hs, hv]
    · rw [if_neg hs, if_neg hs']
      split
      · next h =>
        rw [h.1]
        exact iff_of_false (fun hs'' => hs' (Or.inl (hu h.2 hs''))) hs
      · rfl

/-- A permitted move carries the mover's king, if at all, to its target and no other king. -/
theorem king_after (hp : p.Sound) (h : Permitted p m) (ht : Tame p m)
    (hk : p.pieceAt? m.target ≠ some (p.turn.opponent, .king)) :
    after p.pieceAt? p.turn m s = some (c, .king) ↔
      if c = p.turn ∧ p.pieceAt? m.origin = some (p.turn, .king) then s = m.target
      else p.pieceAt? s = some (c, .king) := by
  have hn := h.target_ne_king ht hk
  obtain ⟨k, ho⟩ := h.origin
  by_cases hc : m.kind = .castle
  · rw [king_after_castle hp h hc]
    simp [(h.castle_squares hc).1]
  · have hpk : m.promoted?.getD k = .king ↔ k = .king := h.promoted_king_iff ho
    by_cases he : m.kind = .enPassant
    · refine king_after_step hp ho hpk ?_ hn (ht he).2
      simp [after, he, Move.promoted?, ho]
    · refine king_after_step hp ho hpk ?_ hn hn
      rw [after_ordinary hc he ho]
      split
      · rfl
      · next hs => simp [hs]

/-- Of the moves of a pawn only the double step spans two ranks. -/
theorem Permitted.doublePush_of_distance (h : Permitted p m)
    (ho : p.pieceAt? m.origin = some (c, .pawn)) (hd : Play.rankDistance m.origin m.target = 2) :
    ∃ u, m.origin.rank = p.turn.pawnRank ∧ m.origin.Off (p.turn.forward, 0) u ∧
      p.pieceAt? u = none ∧ u.Off (p.turn.forward, 0) m.target ∧ m.kind = .doublePush := by
  have hne : ∀ {k}, p.pieceAt? m.origin = some (p.turn, k) → k = .pawn := fun hs =>
    (pair_unique hs ho).2
  cases h with
  | doublePush _ hr hu hn hv _ => exact ⟨_, hr, hu, hn, hv, rfl⟩
  | quiet hs hk | capture hs hk => exact (hk (hne hs)).elim
  | castleKingside _ hs | castleQueenside _ hs => cases hne hs
  | push _ hstep | promotion _ hstep =>
    cases hc : p.turn <;> simp only [hc, Off, Color.forward, Play.rankDistance] at hstep hd <;> omega
  | pawnCapture _ hstep | capturingPromotion _ hstep | enPassant _ _ hstep =>
    cases hc : p.turn <;>
      simp only [hc, PawnStep, Off, Color.forward, Play.rankDistance] at hstep hd <;> omega

end Rules

namespace Position

/-- In a well-formed position an en passant capture takes a pawn and arrives on an empty square. -/
theorem WellFormed.of_enPassant (hp : p.WellFormed) (h : Permitted p m)
    (he : m.kind = .enPassant) :
    p.pieceAt? m.target = none ∧ Play.victimSquare? p.turn m = some (beside m) ∧
      p.pieceAt? (beside m) = some (p.turn.opponent, .pawn) := by
  cases h with
  | @enPassant s t _ ht hstep =>
    obtain ⟨-, hn, v, hv, hpawn⟩ := hp.en_passant t ht
    have hb := Play.behind?_eq_beside (m := ⟨s, t, .enPassant⟩) hstep
    have hbv : beside ⟨s, t, .enPassant⟩ = v := by
      rw [Play.behind?, step?_eq_some_iff] at hb
      exact hb.unique hv
    exact ⟨hn, by simpa [Play.victimSquare?] using hb, by rw [hbv, hpawn]⟩
  | _ => cases he

theorem WellFormed.tame (hp : p.WellFormed) (h : Permitted p m) : Tame p m := by
  intro he
  obtain ⟨hn, -, hpawn⟩ := hp.of_enPassant h he
  exact ⟨hn, fun c => by simp [hpawn]⟩

end Position

namespace Played

theorem sound (h : Played p m k next undo) (hp : p.Sound) (hm : Permitted p m) (ht : Tame p m)
    (hk : p.pieceAt? m.target ≠ some (p.turn.opponent, .king)) : next.Sound := by
  refine (h.consistent hp.toConsistent).sound fun c => ?_
  simp only [h.pieceAt?, king_after hp hm ht hk]
  split
  · exact ⟨m.target, fun _ => Iff.rfl⟩
  · obtain ⟨s, -, hs⟩ := hp.exists_king c
    exact ⟨s, hs⟩

/-- Whatever the en passant square was, the next one is that of a double step. -/
theorem wellFormed (h : Played p m k next undo) (hp : p.Sound) (hm : Permitted p m) (ht : Tame p m)
    (hk : p.pieceAt? m.target ≠ some (p.turn.opponent, .king)) : next.WellFormed := by
  refine ⟨h.sound hp hm ht hk, fun t ht => ?_⟩
  rw [h.enPassant, Position.enPassantAfter, Option.ite_none_right_eq_some] at ht
  obtain ⟨⟨rfl, hd⟩, ht⟩ := ht
  obtain ⟨u, hr, hu, hn, hv, hkind⟩ := hm.doublePush_of_distance h.origin hd
  obtain rfl : u = t := (skipped_eq hu hv).symm.trans (Option.some.inj ht)
  have ho : u ≠ m.origin := hu.ne_of_forward.symm
  have ht : u ≠ m.target := hv.ne_of_forward
  rw [h.pieceAt?, h.turn, Color.opponent_opponent]
  refine ⟨?_, ?_, m.target, ?_, ?_⟩
  · have := hu.1
    refine Fin.ext ?_
    cases hc : p.turn <;> rw [hc] at this hr <;> rw [hr] at this <;>
      simp [Color.forward, Color.pawnRank, Color.opponent, Color.sixthRank, secondRank,
        seventhRank] at this ⊢ <;> omega
  · simp [after, hkind, ho, ht, hn]
  · cases hc : p.turn <;> rw [hc] at hv <;> exact hv
  · simp [after, hkind, h.origin]

end Played

end ChessEval
