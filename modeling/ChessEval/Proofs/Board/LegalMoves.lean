import ChessEval.Proofs.Board.Following
import ChessEval.Proofs.Board.Generating

/-! The listed moves of a well-formed position are its legal ones, each once. -/
namespace ChessEval

open Square Rules

variable {p next : Position} {undo : Undo} {m : Move} {k : Piece} {s : Square} {l : List Move}

namespace Position

theorem KingSafe_iff (hp : p.Sound) {c : Color} (hk : p.king? c = some s) :
    (p.attackers s c.opponent).isEmpty = true ↔ KingSafe p.pieceAt? c := by
  rw [attackers_isEmpty_iff hp.toConsistent, KingSafe]
  rw [hp.king?_eq_some_iff] at hk
  exact ⟨fun h t ht => hp.king_unique hk ht ▸ h, fun h => h s hk⟩

/-- Trying a permitted move tells whether it leaves the own king safe, and changes nothing. -/
theorem Sound.exists_trial (hp : p.Sound) (hm : Permitted p m) (ht : Tame p m)
    (hk : p.pieceAt? m.target ≠ some (p.turn.opponent, .king)) :
    ∃ next undo king, p.play? m = some (next, undo) ∧ next.king? p.turn = some king ∧
      next.takeBack undo = p ∧ ((next.attackers king p.turn.opponent).isEmpty = true ↔
        KingSafe (after p.pieceAt? p.turn m) p.turn) := by
  obtain ⟨k, next, undo, h⟩ := hm.exists_played hp.toConsistent ht
  have hn := h.sound hp hm ht hk
  obtain ⟨king, hking, -⟩ := hn.exists_king p.turn
  refine ⟨next, undo, king, h.play, hking, h.takeBack, ?_⟩
  rw [KingSafe_iff hn hking, h.pieceAt?]

open Classical in
/-- The sieve keeps the moves that take no king and leave the own king safe. -/
theorem Sound.sift?_eq_filter (hp : p.Sound) (hk : p.king? p.turn.opponent = some s)
    (hl : ∀ m ∈ l, Permitted p m ∧ Tame p m) :
    sift? p.turn s p l = some (l.filter fun m =>
      m.target ≠ s ∧ KingSafe (after p.pieceAt? p.turn m) p.turn) := by
  induction l with
  | nil => rfl
  | cons m l ih =>
    obtain ⟨⟨hm, ht⟩, hl⟩ := List.forall_mem_cons.mp hl
    rw [sift?]
    split
    · next htarget => rw [ih hl, List.filter_cons_of_neg (by simp [htarget])]
    · next htarget =>
      have hking : p.pieceAt? m.target ≠ some (p.turn.opponent, .king) := fun h => by
        rw [hp.king?_eq_some_iff] at hk
        exact htarget (hp.king_unique h hk)
      obtain ⟨next, undo, king, hplay, hking, hback, hsafe⟩ := hp.exists_trial hm ht hking
      simp only [hplay, hking, hback, ih hl, Option.bind_eq_bind, Option.bind_some,
        Option.pure_def]
      by_cases h : KingSafe (after p.pieceAt? p.turn m) p.turn
      · rw [List.filter_cons_of_pos (by simp [htarget, h]), if_pos (hsafe.mpr h)]
      · rw [List.filter_cons_of_neg (by simp [h]), if_neg (mt hsafe.mp h)]

/-- The listed moves of a well-formed position are the legal ones, each once. -/
theorem legalMoves?_eq_legal (p : Position) (hp : p.WellFormed) :
    ∃ l, p.legalMoves? = some l ∧ l.Nodup ∧ ∀ m, m ∈ l ↔ Legal p m := by
  obtain ⟨s, hs, hking⟩ := hp.exists_king p.turn.opponent
  have hc := hp.toConsistent
  have hsift := hp.sift?_eq_filter hs (l := p.candidates) fun m hm =>
    ⟨hc.mem_candidates.mp hm, hp.tame (hc.mem_candidates.mp hm)⟩
  have hlegal : p.legalMoves? = sift? p.turn s p p.candidates := by
    simp [legalMoves?, hs, hp.pseudoLegalMoves?_eq]
  refine ⟨_, hlegal.trans hsift, hc.nodup_candidates.filter _, fun m => ?_⟩
  simp only [List.mem_filter, hc.mem_candidates, decide_eq_true_eq]
  constructor
  · rintro ⟨hm, ht, hsafe⟩
    exact ⟨hm, fun h => ht ((hking _).mp h), hsafe⟩
  · rintro ⟨hm, ht, hsafe⟩
    exact ⟨hm, fun h => ht ((hking _).mpr h), hsafe⟩

/-- White may castle, or capture the pawn on d5 en passant. -/
theorem legalMoves?_eq_legal_of_castling_and_enPassant :
    ∃ p : Position, p.castling = .all ∧ p.enPassant = some 43 ∧
      ∃ l, p.legalMoves? = some l ∧ l.Nodup ∧ ∀ m, m ∈ l ↔ Legal p m := by
  let pieces : List Placed := [⟨.white, .king, 4⟩, ⟨.white, .rook, 7⟩, ⟨.white, .pawn, 36⟩,
    ⟨.black, .king, 60⟩, ⟨.black, .pawn, 35⟩]
  have hp : (empty.exchange [] pieces).Sound := by
    refine ⟨consistent_of_distinct (by decide), fun c => ?_⟩
    cases c <;> decide
  refine ⟨{ empty.exchange [] pieces with castling := .all, enPassant := some 43 }, rfl, rfl,
    legalMoves?_eq_legal _ ⟨hp.of_sameBoard ⟨fun _ => rfl, rfl⟩, fun t ht => ?_⟩⟩
  obtain rfl := Option.some.inj ht
  exact ⟨by decide, by decide +kernel, 35, by rw [Off]; decide +kernel, by decide +kernel⟩

end Position

end ChessEval
