import ChessEval.Proofs.Board.KingCaptures
import ChessEval.Proofs.Board.Rights

/-! The change that a legal move leaves on record is the difference of the two boards, and it names a
king exactly if that king goes to another square. -/
namespace ChessEval

open Square Rules

variable {p next : Position} {undo : Undo} {m : Move} {k : Piece} {d : Change} {c : Color}
  {s t : Square} {x : Placed} {b b' : Board} {l off on : List Placed}

namespace Rules

/-- The board without what stands on the squares of some pieces. -/
def without (b : Board) (l : List Placed) : Board := fun s =>
  if ∃ x ∈ l, x.square = s then none else b s

/-- The board with some pieces put on it, each in the place of whatever stood on its square. -/
def withPieces (b : Board) (l : List Placed) : Board := fun s =>
  ((l.find? fun x => x.square = s).map fun x => (x.color, x.piece)).or (b s)

theorem withPieces_of_mem (hd : (l.map Placed.square).Nodup) (hx : x ∈ l) :
    withPieces b l x.square = some (x.color, x.piece) := by
  have hfind : l.find? (fun y => y.square = x.square) = some x := by
    cases h : l.find? fun y => y.square = x.square with
    | none =>
      have hnone := List.find?_eq_none.mp h x hx
      simp at hnone
    | some y =>
      have hsquare : y.square = x.square := by simpa using List.find?_some h
      rw [List.inj_on_of_nodup_map hd (List.mem_of_find?_eq_some h) hx hsquare]
  rw [withPieces, hfind]
  rfl

theorem withPieces_of_not_mem (h : ∀ x ∈ l, x.square ≠ s) : withPieces b l s = b s := by
  have hfind : l.find? (fun x => x.square = s) = none := by
    apply List.find?_eq_none.mpr
    intro x hx
    simpa using h x hx
  rw [withPieces, hfind]
  rfl

end Rules

/-- A change is the difference of two boards: what it takes off stands on the first, each piece named
once, what it puts on goes to distinct squares that are empty then, and this gives the second. -/
structure Change.Exact (d : Change) (b b' : Board) : Prop where
  removed_distinct : (d.removed.map Placed.square).Nodup
  removed_present : ∀ x ∈ d.removed, b x.square = some (x.color, x.piece)
  added_distinct : (d.added.map Placed.square).Nodup
  added_free : ∀ x ∈ d.added, without b d.removed x.square = none
  board_eq : withPieces (without b d.removed) d.added = b'

namespace Position.Exchangeable

/-- Pieces that stand on the board are told apart by their squares. -/
theorem off_squares (h : p.Exchangeable off on) : (off.map Placed.square).Nodup := by
  apply h.nodup_off.map_on
  intro x hx y hy hs
  have hpx := h.present x hx
  rw [hs] at hpx
  obtain ⟨hc, hk⟩ := pair_unique hpx (h.present y hy)
  cases x
  cases y
  simp_all

theorem on_squares (h : p.Exchangeable off on) : (on.map Placed.square).Nodup :=
  h.nodup_on.map_on h.distinct

theorem without_free (h : p.Exchangeable off on) (hx : x ∈ on) :
    without p.pieceAt? off x.square = none := by
  rw [without]
  split
  · rfl
  · next hnone =>
    rcases h.free x hx with hfree | hoff
    · exact hfree
    · exact (hnone hoff).elim

/-- On the sets the exchange is what taking off and putting on are on the board. -/
theorem withPieces_without (h : p.Exchangeable off on) (hp : p.Consistent) :
    withPieces (without p.pieceAt? off) on = (p.exchange off on).pieceAt? := by
  funext s
  by_cases hon : ∃ x ∈ on, x.square = s
  · obtain ⟨x, hx, rfl⟩ := hon
    rw [withPieces_of_mem h.on_squares hx, h.pieceAt?_of_mem_on hp hx]
  · have hnone : ∀ x ∈ on, x.square ≠ s := fun x hx he => hon ⟨x, hx, he⟩
    rw [withPieces_of_not_mem hnone, without]
    split
    · next hoff =>
      obtain ⟨x, hx, rfl⟩ := hoff
      exact (h.pieceAt?_of_mem_off hp hx hnone).symm
    · next hoff =>
      have hstays : ∀ x ∈ off, x.square ≠ s := fun x hx he => hoff ⟨x, hx, he⟩
      exact (h.pieceAt?_of_not_mem hp hnone hstays).symm

end Position.Exchangeable

/-- The mover is the first piece that the record names. -/
theorem Position.mover_mem_removed (ho : p.pieceAt? m.origin = some (c, k))
    (hd : p.change? m = some d) : ⟨p.turn, k, m.origin⟩ ∈ d.removed := by
  simp only [change?, ho, Option.bind_eq_bind, Option.bind_some, Option.pure_def] at hd
  split at hd
  · obtain rfl := Option.some.inj hd
    exact List.mem_cons_self
  · obtain ⟨v, -, hd⟩ := Option.bind_eq_some_iff.mp hd
    split at hd <;> obtain rfl := Option.some.inj hd <;> exact List.mem_cons_self

namespace Played

variable (h : Played p m k next undo)

include h

theorem exact (hp : p.Consistent) : undo.change.Exact p.pieceAt? next.pieceAt? where
  removed_distinct := h.fits.exchangeable.off_squares
  removed_present := h.fits.exchangeable.present
  added_distinct := h.fits.exchangeable.on_squares
  added_free _ hx := h.fits.exchangeable.without_free hx
  board_eq := by rw [h.fits.exchangeable.withPieces_without hp, h.same.pieceAt?]

/-- The record names a king exactly if the mover is one: no king is captured. -/
theorem movesKing_iff (hp : p.WellFormed) (hm : Permitted p m)
    (hk : p.pieceAt? m.target ≠ some (p.turn.opponent, .king)) :
    undo.change.movesKing c = true ↔ c = p.turn ∧ k = .king := by
  rw [Change.movesKing, List.any_eq_true]
  constructor
  · rintro ⟨x, hx, hking⟩
    obtain ⟨hpiece, hcolor⟩ : x.piece = .king ∧ x.color = c := by simpa using hking
    rcases h.of_mem_removed hp hm hx with he | ⟨ht, he⟩ | ⟨-, he | he⟩
    · subst he
      exact ⟨hcolor.symm, hpiece⟩
    · exact ⟨hcolor.symm.trans ht, he⟩
    · have hpresent := h.fits.exchangeable.present x hx
      rw [he, hpiece] at hpresent
      exact (hm.target_ne_king (hp.tame hm) hk _ hpresent).elim
    · rw [hpiece] at he
      cases he
  · rintro ⟨rfl, rfl⟩
    exact ⟨_, Position.mover_mem_removed h.origin h.fits.change, by simp⟩

/-- Both sides have a king before and after, on another square exactly if the record names it. -/
theorem exists_kings (hp : p.WellFormed) (hm : Permitted p m)
    (hk : p.pieceAt? m.target ≠ some (p.turn.opponent, .king)) (c : Color) :
    ∃ s t, p.king? c = some s ∧ next.king? c = some t ∧
      (undo.change.movesKing c = true ↔ s ≠ t) := by
  have ht := hp.tame hm
  obtain ⟨s, hs, hking⟩ := hp.exists_king c
  obtain ⟨t, ht', hking'⟩ := (h.sound hp.toSound hm ht hk).exists_king c
  refine ⟨s, t, hs, ht', ?_⟩
  have hafter : ∀ u, u = t ↔ if c = p.turn ∧ p.pieceAt? m.origin = some (p.turn, .king)
      then u = m.target else p.pieceAt? u = some (c, .king) := by
    intro u
    rw [← hking', h.pieceAt?, king_after hp.toSound hm ht hk]
  rw [h.movesKing_iff hp hm hk]
  by_cases hmover : c = p.turn ∧ k = .king
  · obtain ⟨rfl, rfl⟩ := hmover
    have htarget : m.target = t := by
      apply (hafter m.target).mpr
      rw [if_pos ⟨rfl, h.origin⟩]
    have hne : s ≠ t := by
      intro he
      apply hm.target_ne_king ht hk p.turn
      rw [htarget, ← he]
      exact (hking s).mpr rfl
    simp [hne]
  · have hstays : s = t := by
      apply (hafter s).mpr
      rw [if_neg]
      · exact (hking s).mpr rfl
      · rintro ⟨rfl, ho⟩
        exact hmover ⟨rfl, (pair_unique h.origin ho).2⟩
    simp [hmover, hstays]

end Played

namespace Position

/-- Every legal move of a well-formed position can be played, its record is the exact difference of
the boards before and after, and it names a color's king exactly if that king changes its square. -/
theorem legal_moves_record_exact_changes (hp : p.WellFormed) :
    ∃ l, p.legalMoves? = some l ∧ ∀ m ∈ l, ∃ next undo, p.play? m = some (next, undo) ∧
      next.Sound ∧ undo.change.Exact p.pieceAt? next.pieceAt? ∧
      ∀ c, ∃ s t, p.king? c = some s ∧ next.king? c = some t ∧
        (undo.change.movesKing c = true ↔ s ≠ t) := by
  obtain ⟨l, hl, -⟩ := hp.legalMoves?_keepsKings_iff.mpr hp.not_enPassantFault
  refine ⟨l, hl, ?_⟩
  intro m hm
  obtain ⟨⟨hpm, hking⟩, k, next, undo, h⟩ := hp.exists_played hl hm
  refine ⟨next, undo, h.play, h.sound hp.toSound hpm (hp.tame hpm) hking, h.exact hp.toConsistent, ?_⟩
  intro c
  exact h.exists_kings hp hpm hking c

/-- Castlings to both sides, an en passant capture and a pawn that captures and becomes a queen. -/
theorem legal_moves_record_exact_changes_of_enPassant : ∃ p l,
    ofFen "r3k2r/1P6/8/3pP3/8/8/8/R3K2R w KQkq d6 0 1" = .ok p ∧ p.legalMoves? = some l ∧
    [⟨4, 6, .castle⟩, ⟨4, 2, .castle⟩, ⟨36, 43, .enPassant⟩, ⟨49, 56, .promotion .queen true⟩] ⊆ l ∧
    ∀ m ∈ l, ∃ next undo, p.play? m = some (next, undo) ∧
      next.Sound ∧ undo.change.Exact p.pieceAt? next.pieceAt? ∧
      ∀ c, ∃ s t, p.king? c = some s ∧ next.king? c = some t ∧
        (undo.change.movesKing c = true ↔ s ≠ t) := by
  obtain ⟨p, hfen, h⟩ := exists_of_ofFen "r3k2r/1P6/8/3pP3/8/8/8/R3K2R w KQkq d6 0 1"
    (fun p => p.enPassant = some 43 ∧ p.turn = .white ∧ p.pieceAt? 43 = none ∧
      p.pieceAt? 35 = some (.black, .pawn) ∧
      p.legalMoves?.all ([⟨4, 6, .castle⟩, ⟨4, 2, .castle⟩, ⟨36, 43, .enPassant⟩,
        ⟨49, 56, .promotion .queen true⟩] ⊆ ·) = true) (by decide +kernel)
  obtain ⟨he, hturn, hempty, hpawn, hsub⟩ := of_decide_eq_true h
  have hp : p.WellFormed := by
    refine ⟨sound_of_ofFen hfen, ?_⟩
    intro t ht
    rw [he] at ht
    obtain rfl := Option.some.inj ht
    rw [hturn]
    exact ⟨by decide, hempty, 35, by rw [Off]; decide, hpawn⟩
  obtain ⟨l, hl, hchanges⟩ := legal_moves_record_exact_changes hp
  rw [hl] at hsub
  exact ⟨p, l, hfen, hl, of_decide_eq_true hsub, hchanges⟩

end Position

end ChessEval
