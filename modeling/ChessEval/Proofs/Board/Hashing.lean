import ChessEval.Proofs.Board.Following
import ChessEval.Proofs.Board.PieceList

/-! The hash that a move carries on is the one computed from the whole of the next position. -/
namespace ChessEval

open Rules

variable {p next : Position} {undo : Undo} {m : Move} {d : Change} {c : Color} {k : Piece}
  {l l' : List Placed}

/-- Old keys of the rights and of the en passant square cancel. -/
theorem xor_exchange (pieces turn rights target black exchanged rights' target' : UInt64) :
    pieces ^^^ turn ^^^ rights ^^^ target ^^^ black ^^^ target ^^^ rights ^^^ exchanged ^^^
        target' ^^^ rights' =
      pieces ^^^ exchanged ^^^ (turn ^^^ black) ^^^ rights' ^^^ target' := by
  calc
    _ = pieces ^^^ exchanged ^^^ (turn ^^^ black) ^^^ rights' ^^^ target' ^^^
        (rights ^^^ rights) ^^^ (target ^^^ target) := by ac_rfl
    _ = _ := by rw [UInt64.xor_self, UInt64.xor_self, UInt64.xor_zero, UInt64.xor_zero]

namespace Position

/-- A well-formed position with the hash computed from the whole of it. -/
structure Faithful (p : Position) : Prop extends p.WellFormed where
  hash_eq : p.hash = p.hashOf

def turnKey : Color → UInt64
  | .white => 0
  | .black => Zobrist.blackToMove

def enPassantKey : Option Square → UInt64
  | some s => Zobrist.enPassant s
  | none => 0

theorem toggle_eq (h : UInt64) (l : List Placed) : toggle h l = h ^^^ toggle 0 l := by
  induction l generalizing h with
  | nil => simp [toggle]
  | cons x l ih =>
    change toggle (h ^^^ _) l = h ^^^ toggle (0 ^^^ _) l
    rw [ih, ih (0 ^^^ _), UInt64.zero_xor, UInt64.xor_assoc]

theorem toggle_append (l l' : List Placed) : toggle 0 (l ++ l') = toggle 0 l ^^^ toggle 0 l' := by
  rw [toggle, List.foldl_append, ← toggle, ← toggle, toggle_eq]

theorem toggle_perm (h : l.Perm l') : toggle 0 l = toggle 0 l' := by
  refine h.foldl_eq' (fun x _ y _ z => ?_) 0
  rw [UInt64.xor_assoc, UInt64.xor_comm (Zobrist.piece _ _ _), ← UInt64.xor_assoc]

/-- The hash as the keys of the pieces, of the turn, of the rights and of the en passant square. -/
theorem hashOf_eq (p : Position) :
    p.hashOf = toggle 0 p.placedPieces ^^^ turnKey p.turn ^^^ Zobrist.castling p.castling.index ^^^
      enPassantKey p.enPassant := by
  have hpieces : (Color.all.foldl (fun h c => Piece.all.foldl (fun h k =>
      (p.pieces c k).toList.foldl (fun h s => h ^^^ Zobrist.piece c k s) h) h) 0) =
      toggle 0 p.placedPieces := by
    simp only [toggle, placedPieces, List.foldl_flatMap, List.foldl_map]
  rw [hashOf, hpieces]
  cases p.turn <;> cases p.enPassant <;> simp [turnKey, enPassantKey]

theorem SameBoard.hashOf {q : Position} (h : p.SameBoard q) (ht : p.turn = q.turn)
    (he : p.enPassant = q.enPassant) (hc : p.castling = q.castling) : p.hashOf = q.hashOf := by
  rw [hashOf_eq, hashOf_eq, h.placedPieces, ht, he, hc]

theorem turnKey_opponent (c : Color) : turnKey c.opponent = turnKey c ^^^ Zobrist.blackToMove := by
  cases c <;> simp [turnKey, Color.opponent]

theorem castling_of_play? (h : p.play? m = some (next, undo))
    (ho : p.pieceAt? m.origin = some (c, k)) : next.castling = p.rightsAfter m k undo.change := by
  simp only [play?, ho, Option.bind_eq_bind, Option.bind_some, Option.pure_def] at h
  obtain ⟨d, -, h⟩ := Option.bind_eq_some_iff.mp h
  obtain ⟨rfl, rfl⟩ := Prod.mk.inj (Option.some.inj h)
  rfl

theorem halfmoves_of_play? (h : p.play? m = some (next, undo))
    (ho : p.pieceAt? m.origin = some (c, k)) :
    next.halfmoves = p.halfmovesAfter k undo.change := by
  simp only [play?, ho, Option.bind_eq_bind, Option.bind_some, Option.pure_def] at h
  obtain ⟨d, -, h⟩ := Option.bind_eq_some_iff.mp h
  obtain ⟨rfl, rfl⟩ := Prod.mk.inj (Option.some.inj h)
  rfl

/-- A move exchanges the keys of what it changes. -/
theorem hash_of_play? (h : p.play? m = some (next, undo))
    (ho : p.pieceAt? m.origin = some (c, k)) :
    next.hash = toggle (p.hash ^^^ Zobrist.blackToMove ^^^ enPassantKey p.enPassant ^^^
        Zobrist.castling p.castling.index) (undo.change.lifted ++ undo.change.added) ^^^
      enPassantKey next.enPassant ^^^ Zobrist.castling next.castling.index := by
  simp only [play?, ho, Option.bind_eq_bind, Option.bind_some, Option.pure_def] at h
  obtain ⟨d, -, h⟩ := Option.bind_eq_some_iff.mp h
  obtain ⟨rfl, rfl⟩ := Prod.mk.inj (Option.some.inj h)
  cases p.enPassant <;> cases enPassantAfter m k <;> simp [enPassantKey]

end Position

namespace Played

open Position

/-- The pieces that a move exchanges are exchanged in the hash. -/
theorem toggle_placedPieces (h : Played p m k next undo) (hp : p.Consistent) :
    toggle 0 next.placedPieces =
      toggle 0 p.placedPieces ^^^ toggle 0 (undo.change.lifted ++ undo.change.added) := by
  obtain ⟨hnext, hbefore⟩ := placedPieces_exchange_perm h.fits.exchangeable hp
  rw [h.same.placedPieces, ← toggle_perm hnext, ← toggle_perm hbefore, h.fits.lifted,
    toggle_append, toggle_append, toggle_append]
  generalize toggle 0 undo.change.removed = off
  generalize toggle 0 undo.change.added = on
  generalize toggle 0 (p.placedPieces.filter _) = rest
  rw [UInt64.xor_comm off, UInt64.xor_assoc, ← UInt64.xor_assoc off, UInt64.xor_self,
    UInt64.zero_xor, UInt64.xor_comm]

theorem hash_eq (h : Played p m k next undo) (hp : p.Consistent) (hh : p.hash = p.hashOf) :
    next.hash = next.hashOf := by
  rw [hash_of_play? h.play h.origin, toggle_eq, hh, hashOf_eq, hashOf_eq next,
    h.toggle_placedPieces hp, h.turn, turnKey_opponent]
  exact xor_exchange ..

end Played

end ChessEval
