import ChessEval.Network.Accumulator
import ChessEval.Proofs.Board.SquareSet
import ChessEval.Proofs.Network.Summing

/-! A refresh through the cache gives the sums computed from scratch, whatever was refreshed
before. -/
namespace ChessEval

variable {F : FeatureSet} {width buckets : Nat} {t : Transformer F width buckets} {p : Position}
  {view : Color} {king s : Square} {a b : Bitboard}

namespace Square

theorem flipVertical_flipHorizontal (s : Square) :
    s.flipVertical.flipHorizontal = s.flipHorizontal.flipVertical := by
  revert s
  decide

end Square

namespace Feature

theorem orient_orient (view : Color) (king s : Square) : orient view king (orient view king s) = s := by
  cases view <;> simp only [orient] <;> split <;> simp [Square.flipVertical_flipHorizontal]

theorem mem_orientSet : s ∈ orientSet view king b ↔ orient view king s ∈ b := by
  cases view <;> simp only [orient, orientSet] <;> split <;>
    simp [Square.flipVertical_flipHorizontal]

theorem toList_orientSet_perm (view : Color) (king : Square) (b : Bitboard) :
    (orientSet view king b).toList.Perm (b.toList.map (orient view king)) :=
  Bitboard.toList_perm_map (orient_orient view king) fun _ => mem_orientSet

/-- The numbers of the pieces of a placement in a perspective's frame. -/
def placed (view : Color) (a : Color → PieceSets) : List Nat :=
  Color.all.flatMap fun c => Piece.all.flatMap fun k =>
    ((a c).get k).toList.map (orientedIndex view c k)

end Feature

theorem PieceSets.get_map (f : Bitboard → Bitboard) (a : PieceSets) (k : Piece) :
    (a.map f).get k = f (a.get k) := by
  cases k <;> rfl

/-- The features of a position are those of its placement in the perspective's frame. -/
theorem Feature.active_perm (p : Position) (view : Color) (king : Square) :
    (Feature.active p view king).Perm
      (Feature.placed view (RefreshCache.oriented p view king)) := by
  refine List.Perm.flatMap_left _ fun c _ => List.Perm.flatMap_left _ fun k _ => ?_
  rw [RefreshCache.oriented, PieceSets.get_map]
  have h := (Feature.toList_orientSet_perm view king (p.pieces c k)).symm.map (orientedIndex view c k)
  rwa [List.map_map] at h

theorem FeatureSet.active_eq (F : FeatureSet) (p : Position) (view : Color) (king : Square) :
    F.active p view king =
      Feature.active p view king ++ F.threatIndices (Threat.all p) view king := by
  cases F
  · exact (List.append_nil _).symm
  · rfl

namespace Transformer

theorem total_flatMap_sub {α : Type} {f g f' g' : α → List Nat}
    (h : ∀ x, t.total (f x) - t.total (g x) = t.total (f' x) - t.total (g' x)) (l : List α) :
    t.total (l.flatMap f) - t.total (l.flatMap g) =
      t.total (l.flatMap f') - t.total (l.flatMap g') := by
  induction l with
  | nil => rfl
  | cons x l ih =>
    simp only [List.flatMap_cons, total_append]
    rw [add_sub_add_comm, h, ih, add_sub_add_comm]

/-- What two sets have in common counts the same in both. -/
theorem total_sub_sdiff (t : Transformer F width buckets) (f : Square → Nat) (a b : Bitboard) :
    t.total (a.toList.map f) - t.total ((a \ b).toList.map f) =
      t.total (b.toList.map f) - t.total ((b \ a).toList.map f) := by
  have split : ∀ a b : Bitboard, ((a \ b).toList ++ (a &&& b).toList).Perm a.toList := by
    intro a b
    refine Bitboard.perm_toList (List.nodup_append.mpr ⟨Bitboard.nodup_toList _,
      Bitboard.nodup_toList _, ?_⟩) fun s => ?_
    · rintro s hs u hu rfl
      rw [Bitboard.mem_toList] at hs hu
      exact (Bitboard.mem_sdiff.mp hs).2 (Bitboard.mem_and.mp hu).2
    · simp only [List.mem_append, Bitboard.mem_toList, Bitboard.mem_sdiff, Bitboard.mem_and]
      tauto
  have hab : (a &&& b) = (b &&& a) := Bitboard.ext fun s => by
    rw [Bitboard.mem_and, Bitboard.mem_and, and_comm]
  rw [← t.total_perm ((split a b).map f), ← t.total_perm ((split b a).map f), hab]
  simp only [List.map_append, total_append]
  abel

/-- Exchanging the surplus of one placement for that of another. -/
theorem total_surplus (t : Transformer F width buckets) (view : Color) (a b : Color → PieceSets) :
    t.total (Feature.placed view a) - t.total (RefreshCache.surplus view a b) +
      t.total (RefreshCache.surplus view b a) = t.total (Feature.placed view b) := by
  have h : t.total (Feature.placed view a) - t.total (RefreshCache.surplus view a b) =
      t.total (Feature.placed view b) - t.total (RefreshCache.surplus view b a) :=
    total_flatMap_sub (fun c => total_flatMap_sub (fun k => t.total_sub_sdiff _ _ _) _) _
  rw [h, sub_add_cancel]

end Transformer

namespace RefreshCache

/-- Each entry holds the sums of its pieces. -/
def Valid (cache : RefreshCache width buckets) (t : Transformer F width buckets) : Prop :=
  ∀ view b, ((cache.entries view).get b).sums =
    t.start + t.total (Feature.placed view ((cache.entries view).get b).pieces)

theorem entries_setEntry (cache : RefreshCache width buckets) (view v : Color)
    (b i : Fin Feature.kingBuckets) (e : CacheEntry width buckets) :
    ((cache.setEntry view b e).entries v).get i =
      if v = view ∧ i = b then e else (cache.entries v).get i := by
  have hset : ∀ l : Vector (CacheEntry width buckets) Feature.kingBuckets,
      (l.set b e).get i = if i = b then e else l.get i := fun l => by
    change (l.set b e)[i.val] = if i = b then e else l[i.val]
    rw [Vector.getElem_set]
    simp [Fin.ext_iff, eq_comm]
  cases view <;> cases v <;> simp [setEntry, entries, hset]

theorem valid_fresh (t : Transformer F width buckets) : (fresh t).Valid t := by
  intro view b
  have he : ((fresh t).entries view).get b = ⟨t.start, .empty, .empty⟩ := by
    cases view <;> exact Vector.getElem_replicate ..
  have hp : Feature.placed view (CacheEntry.pieces ⟨t.start, .empty, .empty⟩) = [] := by
    rw [Feature.placed, List.flatMap_eq_nil_iff]
    intro c _
    rw [List.flatMap_eq_nil_iff]
    intro k _
    cases c <;> cases k <;> rfl
  rw [he, hp, Transformer.total_nil, add_zero]

/-- A refresh through a valid cache is one from scratch and leaves the cache valid. -/
theorem Valid.refresh? {cache : RefreshCache width buckets} (h : cache.Valid t)
    (hk : p.king? view = some king) :
    ∃ s cache', cache.refresh? t p view = some (s, cache') ∧ t.refresh? p view = some s ∧
      cache'.Valid t := by
  have hsums : t.addAll (t.subAll ((cache.entries view).get (Feature.kingBucket view king)).sums
      (surplus view ((cache.entries view).get (Feature.kingBucket view king)).pieces
        (oriented p view king)))
      (surplus view (oriented p view king)
        ((cache.entries view).get (Feature.kingBucket view king)).pieces) =
      t.start + t.total (Feature.placed view (oriented p view king)) := by
    rw [t.addAll_eq, t.subAll_eq, h, ← t.total_surplus view _ (oriented p view king)]
    abel
  simp only [RefreshCache.refresh?, hk, Option.bind_eq_bind, Option.bind_some, Option.pure_def]
  refine ⟨_, _, rfl, ?_, ?_⟩
  · rw [hsums, Transformer.refresh?, hk, Option.map_some, F.active_eq, t.addAll_eq, t.addAll_eq,
      Transformer.total_append, t.total_perm (Feature.active_perm p view king), add_assoc]
  · intro v i
    rw [entries_setEntry]
    split
    · next hvi =>
      obtain ⟨rfl, rfl⟩ := hvi
      rw [hsums]
      have hp : CacheEntry.pieces ⟨t.start + t.total (Feature.placed v (oriented p v king)),
          oriented p v king .white, oriented p v king .black⟩ = oriented p v king := by
        funext c
        cases c <;> rfl
      rw [hp]
    · exact h v i

end RefreshCache

end ChessEval
