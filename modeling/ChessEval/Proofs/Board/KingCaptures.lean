import Mathlib.Data.List.Pairwise
import ChessEval.Proofs.Board.Reading
import ChessEval.Proofs.Board.Trying

/-! When listing the moves of a position works and lists no move that takes a king: whenever its en
passant square is one that a double step could have left, and in most other cases. -/
namespace ChessEval

open Square Rules

variable {p : Position} {m n : Move} {c : Color} {k : Piece} {s t : Square} {l : List Move}

/-- What an en passant square that no double step left can do: have the own king captured, have the
opponent's king captured, or have an own piece lost that is tried later. -/
inductive EnPassantFault (p : Position) : Prop
  | own_king {m : Move} : Trial p m → m.kind = .enPassant →
    p.pieceAt? (beside m) = some (p.turn, .king) → EnPassantFault p
  | their_king {m : Move} : Trial p m → m.kind = .enPassant →
    p.pieceAt? (beside m) = some (p.turn.opponent, .king) → Spares p m → EnPassantFault p
  | own_piece {m n : Move} {k : Piece} : Trial p m → m.kind = .enPassant → Trial p n →
    n.origin = m.target → p.pieceAt? m.target = some (p.turn, k) →
    (k = .pawn → p.turn = .white) → EnPassantFault p

/-- Every listed move can be played and leaves both kings on the board. -/
def KeepsKings (p : Position) (l : List Move) : Prop :=
  ∀ m ∈ l, ∃ next undo, p.play? m = some (next, undo) ∧ ∀ c, next.king? c ≠ none

theorem keepsKings_iff : KeepsKings p l ↔ ∀ m ∈ l, (p.play? m).any fun x =>
    (x.1.king? .white).isSome && (x.1.king? .black).isSome := by
  refine forall₂_congr fun m _ => ?_
  simp only [Option.any_eq_true, Prod.exists, Bool.and_eq_true, Option.isSome_iff_ne_none]
  refine exists₂_congr fun next undo => and_congr_right fun _ => ⟨fun h => ⟨h _, h _⟩, ?_⟩
  rintro ⟨hwhite, hblack⟩ c
  cases c
  · exact hwhite
  · exact hblack

instance (p : Position) (l : List Move) : Decidable (KeepsKings p l) :=
  decidable_of_iff _ keepsKings_iff.symm

theorem lt_of_pawnStep_white (h : PawnStep .white s t) : s < t := by
  rw [Fin.lt_def]
  rcases h with h | h <;> have := val_eq_of_off h <;> simp only [Color.forward] at this <;> omega

theorem lt_of_pawnStep_black (h : PawnStep .black s t) : t < s := by
  rw [Fin.lt_def]
  rcases h with h | h <;> have := val_eq_of_off h <;> simp only [Color.forward] at this <;> omega

/-- An en passant capture is tried before the moves from its target, except those of a black
pawn. -/
theorem Position.Precedes.of_clash (h : p.Precedes m n) (hm : Permitted p m) (hc : Clash m n)
    (hk : p.pieceAt? m.target = some (p.turn, k)) : k = .pawn → p.turn = .white := by
  obtain ⟨ho, -, hstep⟩ := hm.of_enPassant hc.1
  rintro rfl
  rcases h _ _ ho (hc.2 ▸ hk) with hlt | ⟨-, hle⟩
  · exact (lt_irrefl _ hlt).elim
  · cases hturn : p.turn with
    | white => rfl
    | black =>
      rw [hturn] at hstep
      exact (not_le.mpr (lt_of_pawnStep_black hstep) (hc.2 ▸ hle)).elim

theorem Position.not_precedes_of_clash (hm : Permitted p m) (hc : Clash m n)
    (hk : p.pieceAt? m.target = some (p.turn, k)) (hw : k = .pawn → p.turn = .white) :
    ¬ p.Precedes n m := by
  obtain ⟨ho, -, hstep⟩ := hm.of_enPassant hc.1
  intro h
  rcases h _ _ (hc.2 ▸ hk) ho with hlt | ⟨rfl, hle⟩
  · simp [Piece.index] at hlt
  · rw [hw rfl] at hstep
    exact not_le.mpr (lt_of_pawnStep_white hstep) (hc.2 ▸ hle)

/-- No move starts where a capture tried before it arrived, told without the order of the trials. -/
theorem pairwise_not_clash_iff (hl : ∀ m ∈ l, Trial p m) (hp : l.Pairwise p.Precedes) :
    (l.Pairwise fun m n => ¬ Clash m n) ↔ ∀ m ∈ l, ∀ n ∈ l, Clash m n →
      ∀ k, p.pieceAt? m.target = some (p.turn, k) → ¬ (k = .pawn → p.turn = .white) := by
  constructor
  · intro h m hm n hn hc k hk hw
    have hne : m ≠ n := by
      rintro rfl
      exact (beside_ne ((hl m hm).permitted.of_enPassant hc.1).2.2).1 hc.2
    -- whichever of the two is tried first, the order of the trials rules the clash out
    have hboth := (h.and hp).imp (S := fun a b => (¬ Clash a b ∧ p.Precedes a b) ∨
      (¬ Clash b a ∧ p.Precedes b a)) Or.inl
    have : Std.Symm fun a b => (¬ Clash a b ∧ p.Precedes a b) ∨ (¬ Clash b a ∧ p.Precedes b a) :=
      ⟨fun _ _ => Or.symm⟩
    rcases hboth.forall hm hn hne with h | h
    · exact h.1 hc
    · exact Position.not_precedes_of_clash (hl m hm).permitted hc hk hw h.2
  · intro h
    refine hp.imp_of_mem fun {m n} hm hn hmn hc => ?_
    obtain ⟨k, hk⟩ := (hl n hn).permitted.origin
    rw [hc.2] at hk
    exact h m hm n hn hc k hk (hmn.of_clash (hl m hm).permitted hc hk)

namespace Position

/-- The candidates that are tried. -/
theorem Sound.exists_trials (hp : p.Sound) : ∃ l s, (∀ m, m ∈ l ↔ Trial p m) ∧ l.Nodup ∧
    l.Pairwise p.Precedes ∧ p.pieceAt? s = some (p.turn.opponent, .king) ∧
    p.legalMoves? = sift? p.turn s p l := by
  obtain ⟨s, hs, hking⟩ := hp.exists_king p.turn.opponent
  have hc := hp.toConsistent
  refine ⟨p.candidates.filter (·.target ≠ s), s, fun m => ?_, hc.nodup_candidates.filter _,
    hc.pairwise_candidates.filter _, (hking s).mpr rfl, ?_⟩
  · rw [List.mem_filter, hc.mem_candidates, decide_eq_true_eq]
    constructor
    · rintro ⟨hm, ht⟩
      exact ⟨hm, fun h => ht ((hking _).mp h)⟩
    · rintro ⟨hm, ht⟩
      exact ⟨hm, fun h => ht ((hking _).mpr h)⟩
  · rw [← sift?_filter]
    simp [legalMoves?, hs, hp.pseudoLegalMoves?_eq]

/-- Listing the moves ends, unless an en passant square has the own king or an own piece lost. -/
theorem Sound.exists_legalMoves?_iff (hp : p.Sound) : (∃ l, p.legalMoves? = some l) ↔
    (∀ m, Trial p m → ¬ TakesOwnKing p m) ∧ ∀ m, Trial p m → ∀ n, Trial p n → Clash m n →
      ∀ k, p.pieceAt? m.target = some (p.turn, k) → ¬ (k = .pawn → p.turn = .white) := by
  obtain ⟨l, s, hl, -, hpair, hs, hlegal⟩ := hp.exists_trials
  rw [hlegal, exists_sift?_iff hp hs (fun m => (hl m).mp) (Or.inl rfl),
    pairwise_not_clash_iff (fun m => (hl m).mp) hpair]
  simp only [hl]
  refine and_congr_left' (forall₂_congr fun m hm => and_iff_left ?_)
  obtain ⟨k, hk⟩ := hm.permitted.origin
  simp [hk]

theorem Sound.trial_of_mem (hp : p.Sound) (h : p.legalMoves? = some l) (hm : m ∈ l) :
    Trial p m := by
  obtain ⟨l', s, hl, -, -, -, hlegal⟩ := hp.exists_trials
  exact (hl m).mp ((sift?_sublist (hlegal.symm.trans h)).subset hm)

theorem Sound.mem_legalMoves?_iff_spares (hp : p.Sound) (h : p.legalMoves? = some l)
    (hm : Trial p m) (he : m.kind = .enPassant) : m ∈ l ↔ Spares p m := by
  obtain ⟨l', s, hl, hnodup, -, hs, hlegal⟩ := hp.exists_trials
  exact mem_sift?_iff_spares hp hs (fun m => (hl m).mp) (Or.inl rfl) (hlegal.symm.trans h)
    ((hl m).mpr hm) he hnodup

/-- Playing a candidate takes a king only if it is an en passant capture with a king beside. -/
theorem Sound.exists_play_of_trial (hp : p.Sound) (hm : Trial p m) :
    ∃ next undo, p.play? m = some (next, undo) ∧
      ∀ c, next.king? c = none ↔ m.kind = .enPassant ∧ p.pieceAt? (beside m) = some (c, .king) := by
  by_cases he : m.kind = .enPassant
  · obtain ⟨next, undo, hplay, -, hafter⟩ :=
      exists_enPassant_trial hp.toConsistent hm.permitted he (Or.inl rfl)
    refine ⟨next, undo, hplay, fun c => ?_⟩
    rw [hafter.king?_eq_none_iff hp hm.permitted he, and_iff_right he]
  · have ht : Tame p m := fun h => (he h).elim
    obtain ⟨k, next, undo, h⟩ := hm.permitted.exists_played hp.toConsistent ht
    refine ⟨next, undo, h.play, fun c => ?_⟩
    obtain ⟨s, hs, -⟩ := (h.sound hp hm.permitted ht hm.target).exists_king c
    simp [hs, he]

/-- Listing the moves works and spares both kings exactly if the en passant square is no fault. -/
theorem Sound.legalMoves?_keepsKings_iff (hp : p.Sound) :
    (∃ l, p.legalMoves? = some l ∧ KeepsKings p l) ↔ ¬ EnPassantFault p := by
  constructor
  · rintro ⟨l, hl, hkeeps⟩ hfault
    obtain ⟨hown, hclash⟩ := hp.exists_legalMoves?_iff.mp ⟨l, hl⟩
    cases hfault with
    | own_king hm he hb => exact hown _ hm ⟨he, hb⟩
    | their_king hm he hb hsp =>
      obtain ⟨next, undo, hplay, hkings⟩ :=
        hkeeps _ ((hp.mem_legalMoves?_iff_spares hl hm he).mpr hsp)
      obtain ⟨next', undo', hplay', hnone⟩ := hp.exists_play_of_trial hm
      obtain ⟨rfl, -⟩ := pair_unique hplay hplay'
      exact hkings _ ((hnone _).mpr ⟨he, hb⟩)
    | own_piece hm he hn ho hk hw => exact hclash _ hm _ hn ⟨he, ho⟩ _ hk hw
  · intro hfault
    have hown : ∀ m, Trial p m → ¬ TakesOwnKing p m := fun m hm h =>
      hfault (.own_king hm h.1 h.2)
    obtain ⟨l, hl⟩ := hp.exists_legalMoves?_iff.mpr
      ⟨hown, fun m hm n hn hc k hk hw => hfault (.own_piece hm hc.1 hn hc.2 hk hw)⟩
    refine ⟨l, hl, fun m hm => ?_⟩
    have hmt := hp.trial_of_mem hl hm
    obtain ⟨next, undo, hplay, hnone⟩ := hp.exists_play_of_trial hmt
    refine ⟨next, undo, hplay, fun c hc => ?_⟩
    obtain ⟨he, hb⟩ := (hnone c).mp hc
    rcases c.eq_or_eq_opponent p.turn with rfl | rfl
    · exact hown m hmt ⟨he, hb⟩
    · exact hfault (.their_king hmt he hb ((hp.mem_legalMoves?_iff_spares hl hmt he).mp hm))

/-- The en passant square of a well-formed position is no fault. -/
theorem WellFormed.not_enPassantFault (hp : p.WellFormed) : ¬ EnPassantFault p := by
  rintro (⟨hm, he, hb⟩ | ⟨hm, he, hb, -⟩ | ⟨hm, he, -, -, hk, -⟩)
  · exact (hp.tame hm.permitted he).2 _ hb
  · exact (hp.tame hm.permitted he).2 _ hb
  · rw [(hp.tame hm.permitted he).1] at hk
    cases hk

/-- A legal move of a well-formed position can be played, and is one the rules permit. -/
theorem WellFormed.exists_played (hp : p.WellFormed) (hl : p.legalMoves? = some l) (hm : m ∈ l) :
    Trial p m ∧ ∃ k next undo, Played p m k next undo := by
  have hmt := hp.toSound.trial_of_mem hl hm
  exact ⟨hmt, hmt.permitted.exists_played hp.toConsistent (hp.tame hmt.permitted)⟩

end Position

end ChessEval
