import ChessEval.Network.Transformer

/-! The sums of a position from both sides, and a cache from which they are refreshed. -/
namespace ChessEval

/-- One side's sums, and whether they belong to the position. -/
structure Half (width buckets : Nat) where
  sums : Sums width buckets
  computed : Bool
  deriving DecidableEq

structure Accumulator (width buckets : Nat) where
  white : Half width buckets
  black : Half width buckets
  deriving DecidableEq

namespace Accumulator

variable {width buckets : Nat}

/-- Zeros that belong to no position. -/
def blank : Accumulator width buckets := ⟨⟨.zero, false⟩, ⟨.zero, false⟩⟩

def half (a : Accumulator width buckets) : Color → Half width buckets
  | .white => a.white
  | .black => a.black

/-- The accumulator with one side's sums computed. -/
def store (a : Accumulator width buckets) (view : Color) (s : Sums width buckets) :
    Accumulator width buckets :=
  match view with
  | .white => { a with white := ⟨s, true⟩ }
  | .black => { a with black := ⟨s, true⟩ }

/-- The same numbers, no longer held to belong to the position. -/
def invalidate (a : Accumulator width buckets) : Accumulator width buckets :=
  ⟨{ a.white with computed := false }, { a.black with computed := false }⟩

end Accumulator

/-- Sums without threats, and the pieces in the perspective's frame that they belong to. -/
structure CacheEntry (width buckets : Nat) where
  sums : Sums width buckets
  white : PieceSets
  black : PieceSets

namespace CacheEntry

variable {width buckets : Nat}

def pieces (e : CacheEntry width buckets) : Color → PieceSets
  | .white => e.white
  | .black => e.black

end CacheEntry

/-- For each side and class of its king the entry refreshed last. -/
structure RefreshCache (width buckets : Nat) where
  white : Vector (CacheEntry width buckets) Feature.kingBuckets
  black : Vector (CacheEntry width buckets) Feature.kingBuckets

namespace RefreshCache

variable {F : FeatureSet} {width buckets : Nat}

/-- A new or cleared cache: its entries all belong to an empty board. -/
def fresh (t : Transformer F width buckets) : RefreshCache width buckets :=
  let entry : CacheEntry width buckets := ⟨t.start, .empty, .empty⟩
  ⟨.replicate _ entry, .replicate _ entry⟩

def entries (c : RefreshCache width buckets) :
    Color → Vector (CacheEntry width buckets) Feature.kingBuckets
  | .white => c.white
  | .black => c.black

def setEntry (c : RefreshCache width buckets) (view : Color) (b : Fin Feature.kingBuckets)
    (e : CacheEntry width buckets) : RefreshCache width buckets :=
  match view with
  | .white => { c with white := c.white.set b e }
  | .black => { c with black := c.black.set b e }

/-- A side's pieces in a perspective's frame. -/
def oriented (p : Position) (view : Color) (king : Square) (c : Color) : PieceSets :=
  (p.army c).pieces.map (Feature.orientSet view king)

/-- The numbers of the pieces that stand in the first placement and not in the second. -/
def surplus (view : Color) (a b : Color → PieceSets) : List Nat :=
  Color.all.flatMap fun c => Piece.all.flatMap fun k =>
    ((a c).get k \ (b c).get k).toList.map (Feature.orientedIndex view c k)

/-- The sums of a position, from the entry of its king and the difference of the placements; the
entry is brought up to date. No result without the perspective's king. -/
def refresh? (cache : RefreshCache width buckets) (t : Transformer F width buckets) (p : Position)
    (view : Color) : Option (Sums width buckets × RefreshCache width buckets) := do
  let king ← p.king? view
  let bucket := Feature.kingBucket view king
  let entry := (cache.entries view).get bucket
  let current := oriented p view king
  let sums := t.addAll (t.subAll entry.sums (surplus view entry.pieces current))
    (surplus view current entry.pieces)
  let cache := cache.setEntry view bucket ⟨sums, current .white, current .black⟩
  return (t.addAll sums (F.threatIndices (Threat.all p) view king), cache)

/-- A refresh of one half of an accumulator. -/
def refreshInto? (cache : RefreshCache width buckets) (t : Transformer F width buckets)
    (p : Position) (view : Color) (a : Accumulator width buckets) :
    Option (Accumulator width buckets × RefreshCache width buckets) := do
  let (sums, cache) ← cache.refresh? t p view
  return (a.store view sums, cache)

end RefreshCache

end ChessEval
