import ChessEval.Proofs.Board.Playing

/-! The generated moves of a position are those that the rules permit, each once. -/
namespace ChessEval

open Square Rules

variable {p : Position} {m : Move} {c : Color} {k : Piece} {s t : Square}

theorem Position.pieceAt?_cases (p : Position) (s : Square) (c : Color) :
    p.pieceAt? s = none ∨ (∃ k, p.pieceAt? s = some (c, k)) ∨
      ∃ k, p.pieceAt? s = some (c.opponent, k) := by
  cases h : p.pieceAt? s with
  | none => exact Or.inl rfl
  | some x =>
    obtain ⟨c', k⟩ := x
    rcases c'.eq_or_eq_opponent c with rfl | rfl <;> simp

namespace Generate

/-- The moves of one piece of any kind. -/
def movesFrom (p : Position) (k : Piece) (s : Square) : List Move :=
  match k with
  | .pawn => pawnMoves p s
  | .king => pieceMoves p .king s ++ castlings p s
  | k => pieceMoves p k s

theorem mem_pieceMoves (hp : p.Consistent) :
    m ∈ pieceMoves p k s ↔ ∃ t, Attacks p.pieceAt? p.turn k s t ∧
      ((p.pieceAt? t = none ∧ m = ⟨s, t, .quiet⟩) ∨
        ∃ v, p.pieceAt? t = some (p.turn.opponent, v) ∧ m = ⟨s, t, .capture⟩) := by
  simp only [pieceMoves, toTargets, List.mem_map, Bitboard.mem_toList, Bitboard.mem_sdiff,
    mem_attacks fun u => Position.pieceAt?_ne_none_iff hp, Position.mem_occupiedBy_iff hp]
  constructor
  · rintro ⟨t, ⟨ha, hn⟩, rfl⟩
    refine ⟨t, ha, ?_⟩
    rcases p.pieceAt?_cases t p.turn with h | h | ⟨v, h⟩
    · exact Or.inl ⟨h, by simp [Position.mem_occupiedBy_iff hp, h]⟩
    · exact (hn h).elim
    · exact Or.inr ⟨v, h, by simp [Position.mem_occupiedBy_iff hp, h]⟩
  · rintro ⟨t, ha, ⟨h, rfl⟩ | ⟨v, h, rfl⟩⟩
    · exact ⟨t, ⟨ha, by simp [h]⟩, by simp [Position.mem_occupiedBy_iff hp, h]⟩
    · exact ⟨t, ⟨ha, by simp [h]⟩, by simp [Position.mem_occupiedBy_iff hp, h]⟩

theorem pushSquare?_eq_some_iff (hp : p.Consistent) :
    pushSquare? p s = some t ↔ s.Off (p.turn.forward, 0) t ∧ p.pieceAt? t = none := by
  rw [pushSquare?, Option.filter_eq_some_iff, step?_eq_some_iff, Position.pieceAt?_eq_none_iff hp]
  simp

theorem mem_doublePush (hp : p.Consistent) :
    m ∈ doublePush p s ↔ s.rank = p.turn.pawnRank ∧ ∃ u t, s.Off (p.turn.forward, 0) u ∧
      p.pieceAt? u = none ∧ u.Off (p.turn.forward, 0) t ∧ p.pieceAt? t = none ∧
      m = ⟨s, t, .doublePush⟩ := by
  rw [doublePush]
  split
  · next h =>
    simp only [Option.mem_toList, Option.map_eq_some_iff, Option.bind_eq_some_iff,
      pushSquare?_eq_some_iff hp, h]
    constructor
    · rintro ⟨t, ⟨u, ⟨hu, hn⟩, ht, hn'⟩, rfl⟩
      exact ⟨trivial, u, t, hu, hn, ht, hn', rfl⟩
    · rintro ⟨-, u, t, hu, hn, ht, hn', rfl⟩
      exact ⟨t, ⟨u, ⟨hu, hn⟩, ht, hn'⟩, rfl⟩
  · next h => simp [h]

theorem mem_enPassant :
    m ∈ enPassant p s ↔ ∃ t, p.enPassant = some t ∧ PawnStep p.turn s t ∧
      m = ⟨s, t, .enPassant⟩ := by
  rw [enPassant]
  cases h : p.enPassant with
  | none => simp
  | some t =>
    by_cases hs : PawnStep p.turn s t <;> simp [Attack.mem_pawn, hs]

theorem mem_pawnArrivals {takes : Bool} :
    m ∈ pawnArrivals c s t takes ↔
      if t.rank = lastRank c then
        ∃ k ∈ [Piece.queen, .rook, .bishop, .knight], m = ⟨s, t, .promotion k takes⟩
      else m = ⟨s, t, if takes then .capture else .quiet⟩ := by
  rw [pawnArrivals, lastRank]
  split <;> simp [promotions]

/-- The moves of a pawn are the permitted ones. -/
theorem mem_pawnMoves (hp : p.Consistent) (hs : p.pieceAt? s = some (p.turn, .pawn)) :
    m ∈ pawnMoves p s ↔ Permitted p m ∧ m.origin = s := by
  simp only [pawnMoves, List.mem_append, List.mem_flatMap, Option.mem_toList,
    pushSquare?_eq_some_iff hp, Bitboard.mem_toList, Bitboard.mem_and, Attack.mem_pawn,
    Position.mem_occupiedBy_iff hp, mem_doublePush hp, mem_enPassant, mem_pawnArrivals]
  constructor
  · rintro (((⟨hr, u, t, hu, hn, ht, hn', rfl⟩ | ⟨t, ht, hstep, rfl⟩) | ⟨t, ⟨ht, hn⟩, hm⟩) |
      ⟨t, ⟨ht, v, hv⟩, hm⟩)
    · exact ⟨.doublePush hs hr hu hn ht hn', rfl⟩
    · exact ⟨.enPassant hs ht hstep, rfl⟩
    · split at hm
      · next hr =>
        obtain ⟨k, hk, rfl⟩ := hm
        exact ⟨.promotion hs ht hn hr hk, rfl⟩
      · next hr =>
        subst hm
        exact ⟨.push hs ht hn hr, rfl⟩
    · split at hm
      · next hr =>
        obtain ⟨k, hk, rfl⟩ := hm
        exact ⟨.capturingPromotion hs ht hv hr hk, rfl⟩
      · next hr =>
        subst hm
        exact ⟨.pawnCapture hs ht hv hr, rfl⟩
  · rintro ⟨hm, rfl⟩
    have hne : ∀ {k}, p.pieceAt? m.origin = some (p.turn, k) → k = .pawn := fun h =>
      (pair_unique h hs).2
    cases hm with
    | doublePush _ hr hu hn ht hn' =>
      exact Or.inl (Or.inl (Or.inl ⟨hr, _, _, hu, hn, ht, hn', rfl⟩))
    | enPassant _ ht hstep => exact Or.inl (Or.inl (Or.inr ⟨_, ht, hstep, rfl⟩))
    | push _ ht hn hr => exact Or.inl (Or.inr ⟨_, ⟨ht, hn⟩, by simp [hr]⟩)
    | promotion _ ht hn hr hk =>
      exact Or.inl (Or.inr ⟨_, ⟨ht, hn⟩, by rw [if_pos hr]; exact ⟨_, hk, rfl⟩⟩)
    | pawnCapture _ ht hv hr => exact Or.inr ⟨_, ⟨ht, _, hv⟩, by simp [hr]⟩
    | capturingPromotion _ ht hv hr hk =>
      exact Or.inr ⟨_, ⟨ht, _, hv⟩, by rw [if_pos hr]; exact ⟨_, hk, rfl⟩⟩
    | quiet h hk | capture h hk => exact (hk (hne h)).elim
    | castleKingside _ h | castleQueenside _ h => cases hne h

theorem canCastle_iff (hp : p.Consistent) {side : CastlingSide} :
    canCastle p side = true ↔ p.castling.has p.turn side = true ∧
      p.pieceAt? (ofCoords p.turn.backRank (rookFile side)) = some (p.turn, .rook) ∧
      (∀ f ∈ between side, p.pieceAt? (ofCoords p.turn.backRank f) = none) ∧
      ∀ f ∈ crossed side,
        ¬ Attacked p.pieceAt? p.turn.opponent (ofCoords p.turn.backRank f) := by
  simp only [canCastle, Bool.and_eq_true, List.all_eq_true, decide_eq_true_eq,
    ← Position.pieceAt?_eq_none_iff hp, ← Position.pieceAt?_eq_some_iff hp,
    Position.attackers_isEmpty_iff hp, and_assoc]

theorem mem_castlings (hp : p.Consistent) :
    m ∈ castlings p s ↔ s = ofCoords p.turn.backRank fileE ∧
      ¬ Attacked p.pieceAt? p.turn.opponent s ∧
      ∃ side, canCastle p side = true ∧ m = ⟨s, ofCoords p.turn.backRank (goal side), .castle⟩ := by
  have hside : ∀ side, side ∈ [CastlingSide.kingside, .queenside] := fun side => by
    cases side <;> simp
  rw [castlings]
  split
  · next h =>
    rw [Position.attackers_isEmpty_iff hp] at h
    rw [and_iff_right h.1, and_iff_right h.2]
    simp only [List.mem_map, List.mem_filter, hside, true_and, @eq_comm _ m]
  · next h =>
    rw [Position.attackers_isEmpty_iff hp] at h
    simp only [List.not_mem_nil, false_iff]
    exact fun ⟨he, hn, _⟩ => h ⟨he, hn⟩

theorem mem_castlings_iff (hp : p.Consistent) (hs : p.pieceAt? s = some (p.turn, .king)) :
    m ∈ castlings p s ↔ Permitted p m ∧ m.origin = s ∧ m.kind = .castle := by
  rw [mem_castlings hp]
  constructor
  · rintro ⟨rfl, hn, side, hc, rfl⟩
    obtain ⟨hr, hrook, hb, hx⟩ := (canCastle_iff hp).mp hc
    refine ⟨?_, rfl, rfl⟩
    cases side with
    | kingside => exact .castleKingside hr hs hrook hb (List.forall_mem_cons.mpr ⟨hn, hx⟩)
    | queenside => exact .castleQueenside hr hs hrook hb (List.forall_mem_cons.mpr ⟨hn, hx⟩)
  · rintro ⟨hm, rfl, hk⟩
    cases hm with
    | castleKingside hr _ hrook hb hx =>
      obtain ⟨hn, hx⟩ := List.forall_mem_cons.mp hx
      exact ⟨rfl, hn, .kingside, (canCastle_iff hp).mpr ⟨hr, hrook, hb, hx⟩, rfl⟩
    | castleQueenside hr _ hrook hb hx =>
      obtain ⟨hn, hx⟩ := List.forall_mem_cons.mp hx
      exact ⟨rfl, hn, .queenside, (canCastle_iff hp).mpr ⟨hr, hrook, hb, hx⟩, rfl⟩
    | _ => cases hk

theorem mem_pieceMoves_iff (hp : p.Consistent) (hs : p.pieceAt? s = some (p.turn, k))
    (hk : k ≠ .pawn) :
    m ∈ pieceMoves p k s ↔ Permitted p m ∧ m.origin = s ∧ m.kind ≠ .castle := by
  rw [mem_pieceMoves hp]
  constructor
  · rintro ⟨t, ha, ⟨hn, rfl⟩ | ⟨v, hv, rfl⟩⟩
    · exact ⟨.quiet hs hk ha hn, rfl, by simp⟩
    · exact ⟨.capture hs hk ha hv, rfl, by simp⟩
  · rintro ⟨hm, rfl, hc⟩
    have hne : ∀ {k'}, p.pieceAt? m.origin = some (p.turn, k') → k' = k := fun h =>
      (pair_unique h hs).2
    cases hm with
    | quiet h _ ha hn =>
      obtain rfl := hne h
      exact ⟨_, ha, Or.inl ⟨hn, rfl⟩⟩
    | capture h _ ha hv =>
      obtain rfl := hne h
      exact ⟨_, ha, Or.inr ⟨_, hv, rfl⟩⟩
    | castleKingside | castleQueenside => exact (hc rfl).elim
    | push h | doublePush h | pawnCapture h | promotion h | capturingPromotion h | enPassant h =>
      exact (hk (hne h).symm).elim

/-- The moves of a piece are the permitted ones. -/
theorem mem_movesFrom (hp : p.Consistent) (hs : p.pieceAt? s = some (p.turn, k)) :
    m ∈ movesFrom p k s ↔ Permitted p m ∧ m.origin = s := by
  have hne : Permitted p m → m.origin = s → m.kind = .castle → k = .king := by
    rintro hm rfl hc
    cases hm with
    | castleKingside _ h | castleQueenside _ h =>
      exact (pair_unique hs h).2
    | _ => cases hc
  cases k with
  | pawn => exact mem_pawnMoves hp hs
  | king =>
    rw [movesFrom, List.mem_append, mem_pieceMoves_iff hp hs (by simp), mem_castlings_iff hp hs]
    tauto
  | knight | bishop | rook | queen =>
    rw [movesFrom, mem_pieceMoves_iff hp hs (by simp)]
    · exact ⟨fun h => ⟨h.1, h.2.1⟩, fun h => ⟨h.1, h.2, fun hc => by cases hne h.1 h.2 hc⟩⟩
    all_goals simp

theorem nodup_pieceMoves (p : Position) (k : Piece) (s : Square) : (pieceMoves p k s).Nodup := by
  refine (Bitboard.nodup_toList _).map fun t u h => ?_
  exact congrArg Move.target h

theorem nodup_pawnArrivals {takes : Bool} : (pawnArrivals c s t takes).Nodup := by
  rw [pawnArrivals]
  split
  · simp [promotions]
  · simp

theorem target_of_mem_pawnArrivals {takes : Bool} (h : m ∈ pawnArrivals c s t takes) :
    m.target = t := by
  rw [mem_pawnArrivals] at h
  split at h
  · obtain ⟨k, -, rfl⟩ := h
    rfl
  · rw [h]

theorem nodup_arrivals {takes : Bool} {l : List Square} (hl : l.Nodup) :
    (l.flatMap (pawnArrivals c s · takes)).Nodup := by
  refine List.nodup_flatMap.mpr ⟨fun t _ => nodup_pawnArrivals, hl.imp fun hne m ht hu => ?_⟩
  exact hne ((target_of_mem_pawnArrivals ht).symm.trans (target_of_mem_pawnArrivals hu))

/-- What a pawn's arrival takes shows in its kind. -/
theorem kind_of_mem_arrivals {takes : Bool} {l : List Square}
    (h : m ∈ l.flatMap (pawnArrivals c s · takes)) :
    m.isCapture = takes ∧ m.kind ≠ .doublePush ∧ m.kind ≠ .enPassant := by
  obtain ⟨t, -, h⟩ := List.mem_flatMap.mp h
  rw [mem_pawnArrivals] at h
  split at h
  · obtain ⟨k, -, rfl⟩ := h
    cases takes <;> simp [Move.isCapture]
  · subst h
    cases takes <;> simp [Move.isCapture]

theorem nodup_pawnMoves (p : Position) (s : Square) : (pawnMoves p s).Nodup := by
  have hd : ∀ m ∈ doublePush p s, m.kind = .doublePush := by
    intro m hm
    rw [doublePush] at hm
    split at hm
    · simp only [Option.mem_toList, Option.map_eq_some_iff] at hm
      obtain ⟨t, -, rfl⟩ := hm
      rfl
    · cases hm
  have he : ∀ m ∈ enPassant p s, m.kind = .enPassant := by
    intro m hm
    obtain ⟨t, -, -, rfl⟩ := mem_enPassant.mp hm
    rfl
  have hdn : (doublePush p s).Nodup := by
    rw [doublePush]
    split
    · exact Option.toList_nodup _
    · exact List.nodup_nil
  have hen : (enPassant p s).Nodup := by
    rw [enPassant]
    split
    · split <;> simp
    · exact List.nodup_nil
  rw [pawnMoves, List.nodup_append, List.nodup_append, List.nodup_append]
  refine ⟨⟨⟨hdn, hen, ?_⟩, nodup_arrivals (Option.toList_nodup _), ?_⟩,
    nodup_arrivals (Bitboard.nodup_toList _), ?_⟩
  · rintro m hm n hn rfl
    cases (hd m hm).symm.trans (he m hn)
  · rintro m hm n hn rfl
    obtain ⟨-, hk, hk'⟩ := kind_of_mem_arrivals hn
    rcases List.mem_append.mp hm with hm | hm
    · exact hk (hd m hm)
    · exact hk' (he m hm)
  · rintro m hm n hn rfl
    obtain ⟨ht, hk, hk'⟩ := kind_of_mem_arrivals hn
    rcases List.mem_append.mp hm with hm | hm
    · rcases List.mem_append.mp hm with hm | hm
      · exact hk (hd m hm)
      · exact hk' (he m hm)
    · cases (kind_of_mem_arrivals hm).1.symm.trans ht

theorem nodup_castlings (p : Position) (s : Square) : (castlings p s).Nodup := by
  rw [castlings]
  split
  · refine (List.Nodup.filter _ (by decide)).map fun a b h => ?_
    have := ofCoords_inj.mp (congrArg Move.target h)
    cases a <;> cases b <;> simp_all [goal, fileC, fileG]
  · exact List.nodup_nil

theorem nodup_movesFrom (hp : p.Consistent) (hs : p.pieceAt? s = some (p.turn, k)) :
    (movesFrom p k s).Nodup := by
  cases k with
  | pawn => exact nodup_pawnMoves p s
  | king =>
    refine List.nodup_append.mpr ⟨nodup_pieceMoves p _ s, nodup_castlings p s, ?_⟩
    rintro m hm n hn rfl
    exact ((mem_pieceMoves_iff hp hs (by simp)).mp hm).2.2 ((mem_castlings_iff hp hs).mp hn).2.2
  | knight | bishop | rook | queen => exact nodup_pieceMoves p _ s

end Generate

namespace Position

/-- The moves of each piece of the side to move, kind by kind. -/
def candidates (p : Position) : List Move :=
  Piece.all.flatMap fun k => (p.pieces p.turn k).toList.flatMap (Generate.movesFrom p k)

theorem Sound.pseudoLegalMoves?_eq (hp : p.Sound) : p.pseudoLegalMoves? = some p.candidates := by
  obtain ⟨s, hs⟩ := Bitboard.card_eq_one_iff.mp (hp.one_king p.turn)
  have hk : p.king? p.turn = some s := by rw [king?, hs, Bitboard.first?_single]
  have hf : ∀ k, k ≠ .pawn → k ≠ .king → Generate.movesFrom p k = Generate.pieceMoves p k := by
    intro k h h'
    funext s
    cases k <;> simp_all [Generate.movesFrom]
  have hpawn : Generate.movesFrom p .pawn = Generate.pawnMoves p := rfl
  have hking : Generate.movesFrom p .king s =
    Generate.pieceMoves p .king s ++ Generate.castlings p s := rfl
  simp [pseudoLegalMoves?, hk, candidates, Piece.all, hs, Bitboard.toList_single, hf, hpawn, hking]

/-- The generated moves are the permitted ones. -/
theorem Consistent.mem_candidates (hp : p.Consistent) : m ∈ p.candidates ↔ Permitted p m := by
  simp only [candidates, List.mem_flatMap, Bitboard.mem_toList, ← pieceAt?_eq_some_iff hp]
  constructor
  · rintro ⟨k, -, s, hs, hm⟩
    exact ((Generate.mem_movesFrom hp hs).mp hm).1
  · intro hm
    obtain ⟨k, hk⟩ := hm.origin
    exact ⟨k, by cases k <;> decide, m.origin, hk, (Generate.mem_movesFrom hp hk).mpr ⟨hm, rfl⟩⟩

theorem Consistent.origin_of_mem (hp : p.Consistent) (hs : s ∈ (p.pieces p.turn k).toList)
    (hm : m ∈ Generate.movesFrom p k s) :
    p.pieceAt? m.origin = some (p.turn, k) ∧ m.origin = s := by
  rw [Bitboard.mem_toList, ← pieceAt?_eq_some_iff hp] at hs
  obtain rfl := ((Generate.mem_movesFrom hp hs).mp hm).2
  exact ⟨hs, rfl⟩

theorem Consistent.nodup_candidates (hp : p.Consistent) : p.candidates.Nodup := by
  refine List.nodup_flatMap.mpr ⟨fun k _ => List.nodup_flatMap.mpr ⟨fun s hs => ?_, ?_⟩, ?_⟩
  · rw [Bitboard.mem_toList, ← pieceAt?_eq_some_iff hp] at hs
    exact Generate.nodup_movesFrom hp hs
  · refine (Bitboard.nodup_toList _).imp_of_mem fun hs ht hne m hms hmt => hne ?_
    exact (hp.origin_of_mem hs hms).2.symm.trans (hp.origin_of_mem ht hmt).2
  · have hall : Piece.all.Nodup := by decide
    refine hall.imp fun hne m hm hm' => hne ?_
    obtain ⟨s, hs, hm⟩ := List.mem_flatMap.mp hm
    obtain ⟨t, ht, hm'⟩ := List.mem_flatMap.mp hm'
    have hk := (hp.origin_of_mem hs hm).1.symm.trans (hp.origin_of_mem ht hm').1
    exact (Prod.mk.inj (Option.some.inj hk)).2

/-- The order of the candidates: kind by kind, the pieces of a kind by their squares. -/
def Precedes (p : Position) (m n : Move) : Prop :=
  ∀ k k', p.pieceAt? m.origin = some (p.turn, k) → p.pieceAt? n.origin = some (p.turn, k') →
    k.index < k'.index ∨ k = k' ∧ m.origin ≤ n.origin

theorem Consistent.pairwise_candidates (hp : p.Consistent) : p.candidates.Pairwise p.Precedes := by
  have hkind : ∀ {k k' s}, p.pieceAt? s = some (p.turn, k) → p.pieceAt? s = some (p.turn, k') →
      k = k' := fun h h' => (pair_unique h h').2
  refine List.pairwise_flatMap.mpr ⟨fun k _ => List.pairwise_flatMap.mpr ⟨fun s hs => ?_, ?_⟩, ?_⟩
  · refine List.pairwise_of_forall_mem_list fun m hm n hn j j' hj hj' => Or.inr ?_
    obtain ⟨hm, hms⟩ := hp.origin_of_mem hs hm
    obtain ⟨hn, hns⟩ := hp.origin_of_mem hs hn
    exact ⟨(hkind hj hm).trans (hkind hn hj'), (hms.trans hns.symm).le⟩
  · refine (Bitboard.pairwise_toList _).imp_of_mem fun hs ht hst m hm n hn j j' hj hj' => Or.inr ?_
    obtain ⟨hm, hms⟩ := hp.origin_of_mem hs hm
    obtain ⟨hn, hnt⟩ := hp.origin_of_mem ht hn
    exact ⟨(hkind hj hm).trans (hkind hn hj'), hms.le.trans (hst.le.trans hnt.ge)⟩
  · have hall : Piece.all.Pairwise fun k k' => k.index < k'.index := by decide
    refine hall.imp fun hlt m hm n hn j j' hj hj' => Or.inl ?_
    obtain ⟨s, hs, hm⟩ := List.mem_flatMap.mp hm
    obtain ⟨t, ht, hn⟩ := List.mem_flatMap.mp hn
    rwa [hkind hj (hp.origin_of_mem hs hm).1, hkind hj' (hp.origin_of_mem ht hn).1]

end Position

end ChessEval
