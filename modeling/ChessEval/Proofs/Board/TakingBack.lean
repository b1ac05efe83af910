import ChessEval.Proofs.Board.KingCaptures

/-! Taking back restores the position in every field: after one move, and after each line of moves
that is counted. -/
namespace ChessEval.Position

open Square Rules

variable {p : Position} {n : Nat} {counts : List (Move × Nat)}

/-- Every move that is listed before the sieve, legal or not, can be played, and taking it back
restores the position. -/
theorem takeBack_play_pseudoLegal (hp : p.WellFormed) :
    ∃ l, p.pseudoLegalMoves? = some l ∧
      ∀ m ∈ l, ∃ next undo, p.play? m = some (next, undo) ∧ next.takeBack undo = p := by
  refine ⟨p.candidates, hp.pseudoLegalMoves?_eq, fun m hm => ?_⟩
  have hpm := hp.toConsistent.mem_candidates.mp hm
  obtain ⟨k, next, undo, h⟩ := hpm.exists_played hp.toConsistent (hp.tame hpm)
  exact ⟨next, undo, h.play, h.takeBack⟩

/-- Castlings to both sides, an en passant capture that opens a file to the own king, and a pawn
that captures and becomes a rook. -/
theorem takeBack_play_pseudoLegal_of_pinned_enPassant : ∃ p l,
    ofFen "r3k2r/1P2r3/8/3pP3/8/8/8/R3K2R w KQkq d6 0 1" = .ok p ∧
    p.pseudoLegalMoves? = some l ∧ p.legalMoves?.all (⟨36, 43, .enPassant⟩ ∉ ·) = true ∧
    [⟨4, 6, .castle⟩, ⟨4, 2, .castle⟩, ⟨36, 43, .enPassant⟩, ⟨49, 56, .promotion .rook true⟩] ⊆ l ∧
    ∀ m ∈ l, ∃ next undo, p.play? m = some (next, undo) ∧ next.takeBack undo = p := by
  obtain ⟨p, hfen, h⟩ := exists_of_ofFen "r3k2r/1P2r3/8/3pP3/8/8/8/R3K2R w KQkq d6 0 1"
    (fun p => p.enPassant = some 43 ∧ p.turn = .white ∧ p.pieceAt? 43 = none ∧
      p.pieceAt? 35 = some (.black, .pawn) ∧ p.legalMoves?.all (⟨36, 43, .enPassant⟩ ∉ ·) = true ∧
      p.pseudoLegalMoves?.all ([⟨4, 6, .castle⟩, ⟨4, 2, .castle⟩, ⟨36, 43, .enPassant⟩,
        ⟨49, 56, .promotion .rook true⟩] ⊆ ·) = true) (by decide +kernel)
  obtain ⟨he, hturn, hempty, hpawn, hillegal, hsub⟩ := of_decide_eq_true h
  have hp : p.WellFormed := ⟨sound_of_ofFen hfen, fun t ht => by
    rw [he] at ht
    obtain rfl := Option.some.inj ht
    rw [hturn]
    exact ⟨by decide, hempty, 35, by rw [Off]; decide, hpawn⟩⟩
  obtain ⟨l, hl, hback⟩ := takeBack_play_pseudoLegal hp
  rw [hl] at hsub
  exact ⟨p, l, hfen, hl, hillegal, of_decide_eq_true hsub, hback⟩

/-- A legal move with the number of lines of `n` moves behind it; the count leaves the position that
the move leads to, and that one is taken back. -/
def Counted (p : Position) (n : Nat) (x : Move × Nat) : Prop :=
  ∃ next undo, p.play? x.1 = some (next, undo) ∧ next.countLines? n = some (x.2, next) ∧
    next.takeBack undo = p

/-- Counting behind one move after the other, with the counts gathered by some function. -/
theorem foldlM_counted {β : Type} (g : β → Move → Nat → β) (b : β)
    (hc : ∀ x ∈ counts, p.Counted n x) :
    (counts.map Prod.fst).foldlM (fun (b, p) m => do
      let (next, undo) ← p.play? m
      let (k, next) ← next.countLines? n
      return (g b m k, next.takeBack undo)) (b, p) =
        some (counts.foldl (fun b x => g b x.1 x.2) b, p) := by
  induction counts generalizing b with
  | nil => rfl
  | cons x counts ih =>
    obtain ⟨⟨next, undo, hplay, hcount, hback⟩, hc⟩ := List.forall_mem_cons.mp hc
    rw [List.map_cons, List.foldlM_cons, List.foldl_cons, ← ih _ hc]
    simp only [hplay, hcount, hback, Option.bind_eq_bind, Option.bind_some, Option.pure_def]

/-- The sum of the counts. -/
def sumCounts (counts : List (Move × Nat)) : Nat := counts.foldl (fun total x => total + x.2) 0

theorem countLines?_succ (hl : p.legalMoves? = some (counts.map Prod.fst))
    (hc : ∀ x ∈ counts, p.Counted n x) :
    p.countLines? (n + 1) = some (sumCounts counts, p) := by
  rw [countLines?, hl]
  exact foldlM_counted (fun total _ k => total + k) 0 hc

theorem divide?_eq (hl : p.legalMoves? = some (counts.map Prod.fst))
    (hc : ∀ x ∈ counts, p.Counted n x) : p.divide? n = some (counts, p) := by
  have hfold := foldlM_counted (fun done m k => (m, k) :: done) [] hc
  have hdone : counts.foldl (fun done x => (x.1, x.2) :: done) [] = counts.reverse :=
    List.foldl_flip_cons_eq_append'.trans (List.append_nil _)
  rw [divide?, hl]
  simp only [Option.bind_eq_bind, Option.bind_some] at hfold ⊢
  rw [hfold, hdone]
  simp

theorem WellFormed.exists_counts (hp : p.WellFormed)
    (hn : ∀ q : Position, q.WellFormed → ∃ k, q.countLines? n = some (k, q)) :
    ∃ counts : List (Move × Nat), p.legalMoves? = some (counts.map Prod.fst) ∧
      ∀ x ∈ counts, p.Counted n x := by
  obtain ⟨l, hl, -⟩ := hp.legalMoves?_keepsKings_iff.mpr hp.not_enPassantFault
  have hcount : ∀ m ∈ l, ∃ k, p.Counted n (m, k) := by
    intro m hm
    obtain ⟨⟨hpm, hking⟩, k, next, undo, h⟩ := hp.exists_played hl hm
    obtain ⟨k, hk⟩ := hn next (h.wellFormed hp.toSound hpm (hp.tame hpm) hking)
    exact ⟨k, next, undo, h.play, hk, h.takeBack⟩
  choose! f hf using hcount
  refine ⟨l.map fun m => (m, f m), ?_, ?_⟩
  · rw [List.map_map]
    exact hl.trans (congrArg some (List.map_id l).symm)
  · simpa using hf

/-- The lines of a well-formed position can be counted, however long, and counting leaves the
position as it was. -/
theorem WellFormed.exists_countLines? (hp : p.WellFormed) (n : Nat) :
    ∃ k, p.countLines? n = some (k, p) := by
  induction n generalizing p with
  | zero => exact ⟨1, rfl⟩
  | succ n ih =>
    obtain ⟨counts, hl, hc⟩ := hp.exists_counts fun q hq => ih hq
    exact ⟨_, countLines?_succ hl hc⟩

/-- Counting the lines behind each legal move leaves the position as it was too, and the counts add
up to the number of lines that are one move longer. -/
theorem WellFormed.countLines?_eq_sum_divide? (hp : p.WellFormed) (n : Nat) :
    ∃ counts, p.divide? n = some (counts, p) ∧ p.legalMoves? = some (counts.map Prod.fst) ∧
      p.countLines? (n + 1) = some (sumCounts counts, p) := by
  obtain ⟨counts, hl, hc⟩ := hp.exists_counts fun q hq => hq.exists_countLines? n
  exact ⟨counts, divide?_eq hl hc, hl, countLines?_succ hl hc⟩

end ChessEval.Position
