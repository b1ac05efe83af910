import ChessEval.Network.Networks
import ChessEval.Board.Play

/-! The sums of the positions along a line of play, computed when they are asked for. -/
namespace ChessEval

/-- A move of the line: what it changed, the threats of the position it led to, and how they differ
from those before. -/
structure Ply where
  change : Change
  threats : List Threat
  threatChange : ThreatChange
  deriving DecidableEq

/-- One network's accumulators along a line, the latest move first. -/
structure Track (width buckets : Nat) where
  root : Accumulator width buckets
  plies : List (Ply × Accumulator width buckets)
  /-- Accumulators of moves taken back, kept for the moves to come, the next one first. -/
  spare : List (Accumulator width buckets)
  cache : RefreshCache width buckets

namespace Track

variable {F : FeatureSet} {width buckets : Nat}

/-- The track at a new root, refreshed for both sides through an emptied cache. -/
def reset? (t : Transformer F width buckets) (p : Position) (k : Track width buckets) :
    Option (Track width buckets) := do
  let (w, cache) ← (RefreshCache.fresh t).refresh? t p .white
  let (b, cache) ← cache.refresh? t p .black
  return ⟨(k.root.invalidate.store .white w).store .black b, [], [], cache⟩

/-- A new track at its root. -/
def start? (t : Transformer F width buckets) (p : Position) : Option (Track width buckets) :=
  reset? t p ⟨.blank, [], [], .fresh t⟩

def current (k : Track width buckets) : Accumulator width buckets :=
  match k.plies with
  | [] => k.root
  | (_, a) :: _ => a

/-- The track with one side's sums at the last position. -/
def storeCurrent (k : Track width buckets) (view : Color) (s : Sums width buckets) :
    Track width buckets :=
  match k.plies with
  | [] => { k with root := k.root.store view s }
  | (m, a) :: rest => { k with plies := (m, a.store view s) :: rest }

/-- One side's sums at the last position, replayed from the nearest position where they are
computed; the ones in between are kept. No result if there is none, or the side's king moved on the
way. -/
def replay? (t : Transformer F width buckets) (king : Square) (view : Color)
    (root : Accumulator width buckets) : List (Ply × Accumulator width buckets) →
    Option (Sums width buckets × List (Ply × Accumulator width buckets))
  | [] => if (root.half view).computed then some ((root.half view).sums, []) else none
  | (m, a) :: rest =>
    if (a.half view).computed then some ((a.half view).sums, (m, a) :: rest)
    else if m.change.movesKing view then none
    else (replay? t king view root rest).map fun (before, rest) =>
      let s := t.update before m.change m.threatChange king view
      (s, (m, a.store view s) :: rest)

/-- The track with one side's sums computed at the last position `p`: replayed, or refreshed through
the cache. -/
def bring? (t : Transformer F width buckets) (p : Position) (view : Color)
    (k : Track width buckets) : Option (Track width buckets) :=
  if (k.current.half view).computed then some k
  else do
    let king ← p.king? view
    match replay? t king view k.root k.plies with
    | some (_, plies) => return { k with plies := plies }
    | none =>
      let (s, cache) ← k.cache.refresh? t p view
      return { k with cache := cache }.storeCurrent view s

/-- The track with both sides' sums computed at the last position `p`. -/
def update? (t : Transformer F width buckets) (p : Position) (k : Track width buckets) :
    Option (Track width buckets) := do
  bring? t p .black (← bring? t p .white k)

/-- The track with one more move, on an accumulator left from a move taken back if there is one. -/
def push (k : Track width buckets) (m : Ply) : Track width buckets :=
  match k.spare with
  | [] => { k with plies := (m, .blank) :: k.plies }
  | a :: spare => { k with plies := (m, a.invalidate) :: k.plies, spare := spare }

/-- The track without its last move, whose accumulator is left for later. No result if there is
none. -/
def pop? (k : Track width buckets) : Option (Track width buckets) :=
  match k.plies with
  | [] => none
  | (_, a) :: plies => some { k with plies := plies, spare := a :: k.spare }

end Track

/-- Both networks' accumulators along a line of play. -/
structure Line where
  rootThreats : List Threat
  big : Track 256 8
  small : Track 64 1

namespace Line

/-- The line without moves from a position. No result if a king is missing. -/
def start? (nets : Networks) (p : Position) : Option Line := do
  let big ← Track.start? nets.big.transformer p
  let small ← Track.start? nets.small.transformer p
  return ⟨Threat.sorted p, big, small⟩

/-- The line begun anew from a position. No result if a king is missing. -/
def reset? (l : Line) (nets : Networks) (p : Position) : Option Line := do
  let big ← l.big.reset? nets.big.transformer p
  let small ← l.small.reset? nets.small.transformer p
  return ⟨Threat.sorted p, big, small⟩

/-- The number of moves. -/
def length (l : Line) : Nat := l.big.plies.length

/-- The threats of the last position. -/
def threats (l : Line) : List Threat :=
  match l.big.plies with
  | [] => l.rootThreats
  | (m, _) :: _ => m.threats

/-- The line with one more move, which changed the board as told and led to `p`. -/
def push (l : Line) (d : Change) (p : Position) : Line :=
  let threats := Threat.sorted p
  let m : Ply := ⟨d, threats, .between l.threats threats⟩
  { l with big := l.big.push m, small := l.small.push m }

/-- The line without its last move. No result if it has none. -/
def pop? (l : Line) : Option Line := do
  return { l with big := ← l.big.pop?, small := ← l.small.pop? }

/-- Plays a move on the board and along the line. -/
def play? (l : Line) (p : Position) (m : Move) : Option (Line × Position × Undo) :=
  (p.play? m).map fun (next, undo) => (l.push undo.change next, next, undo)

/-- Takes the last move back from the board and the line. -/
def takeBack? (l : Line) (p : Position) (u : Undo) : Option (Line × Position) :=
  l.pop?.map fun l => (l, p.takeBack u)

/-- The big network's accumulator at the last position `p`. -/
def bigAccumulator? (l : Line) (nets : Networks) (p : Position) : Option (BigAccumulator × Line) :=
  (l.big.update? nets.big.transformer p).map fun k => (k.current, { l with big := k })

/-- The small network's accumulator at the last position `p`. -/
def smallAccumulator? (l : Line) (nets : Networks) (p : Position) :
    Option (SmallAccumulator × Line) :=
  (l.small.update? nets.small.transformer p).map fun k => (k.current, { l with small := k })

end Line

end ChessEval
