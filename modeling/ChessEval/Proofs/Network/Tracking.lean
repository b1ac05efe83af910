import ChessEval.Network.Line
import ChessEval.Proofs.Network.Updating

/-! The accumulators along a line of play: whichever of them are computed hold the sums of their
positions, and bringing the last one up to date keeps it so. -/
namespace ChessEval

variable {F : FeatureSet} {width buckets : Nat} {t : Transformer F width buckets} {p q : Position}
  {ps : List Position} {view v : Color} {king : Square} {root a : Accumulator width buckets}
  {s : Sums width buckets} {m : Ply} {plies plies' : List (Ply × Accumulator width buckets)}
  {k k' : Track width buckets}

namespace Accumulator

@[simp] theorem half_store (a : Accumulator width buckets) (view v : Color)
    (s : Sums width buckets) : (a.store view s).half v = if v = view then ⟨s, true⟩ else a.half v := by
  cases view <;> cases v <;> rfl

@[simp] theorem computed_blank (v : Color) :
    ((blank : Accumulator width buckets).half v).computed = false := by
  cases v <;> rfl

@[simp] theorem computed_invalidate (a : Accumulator width buckets) (v : Color) :
    (a.invalidate.half v).computed = false := by
  cases v <;> rfl

/-- The sums that count as computed are those of the position. -/
def Holds (a : Accumulator width buckets) (t : Transformer F width buckets) (p : Position) : Prop :=
  ∀ view, (a.half view).computed = true → t.refresh? p view = some (a.half view).sums

theorem Holds.store (h : a.Holds t p) (hs : t.refresh? p view = some s) :
    (a.store view s).Holds t p := by
  intro v hv
  rw [half_store] at hv ⊢
  split
  · next hvv => rw [hvv, hs]
  · next hvv => exact h v (by rwa [if_neg hvv] at hv)

end Accumulator

/-- The accumulators hold the sums of the positions of a line, the latest first, and its moves lead
from each position to the next. -/
inductive Tracks (t : Transformer F width buckets) (root : Accumulator width buckets) :
    List (Ply × Accumulator width buckets) → List Position → Prop
  | root {p : Position} : p.Sound → root.Holds t p → Tracks t root [] [p]
  | ply {m : Ply} {a : Accumulator width buckets} {plies : List (Ply × Accumulator width buckets)}
    {p q : Position} {ps : List Position} : Tracks t root plies (p :: ps) → q.Sound → Follows p m.change q →
    m.threats = Threat.sorted q →
    m.threatChange = .between (Threat.sorted p) (Threat.sorted q) → a.Holds t q →
    Tracks t root ((m, a) :: plies) (q :: p :: ps)

namespace Tracks

theorem sound (h : Tracks t root plies (q :: ps)) : q.Sound := by
  cases h <;> assumption

/-- Replaying finds the sums of the last position, and what it keeps on the way holds. -/
theorem replay? (h : Tracks t root plies (q :: ps)) (hk : q.king? view = some king)
    (hr : Track.replay? t king view root plies = some (s, plies')) :
    t.refresh? q view = some s ∧ Tracks t root plies' (q :: ps) := by
  induction plies generalizing q ps s plies' with
  | nil =>
    cases h with
    | root hq hroot =>
      rw [Track.replay?] at hr
      split at hr
      · next hcomputed =>
        obtain ⟨rfl, rfl⟩ := Prod.mk.inj (Option.some.inj hr)
        exact ⟨hroot _ hcomputed, .root hq hroot⟩
      · cases hr
  | cons x plies ih =>
    cases h with
    | @ply m a _ p _ ps htracks hq hfollows hthreats hchange ha =>
      rw [Track.replay?] at hr
      split at hr
      · next hcomputed =>
        obtain ⟨rfl, rfl⟩ := Prod.mk.inj (Option.some.inj hr)
        exact ⟨ha _ hcomputed, .ply htracks hq hfollows hthreats hchange ha⟩
      · split at hr
        · cases hr
        · next hmoves =>
          obtain ⟨⟨before, rest⟩, hrest, hr⟩ := Option.map_eq_some_iff.mp hr
          obtain ⟨rfl, rfl⟩ := Prod.mk.inj hr
          -- the side's king stands still, so both positions' features are oriented alike
          have hking := hfollows.king?_eq htracks.sound hq (Bool.eq_false_iff.mpr hmoves)
          obtain ⟨hbefore, htracks⟩ := ih htracks (hking.symm.trans hk) hrest
          have hs := hfollows.update htracks.sound.toConsistent hbefore (hking.symm.trans hk) hk
          rw [← hchange] at hs
          exact ⟨hs, .ply htracks hq hfollows hthreats hchange (ha.store hs)⟩

end Tracks

namespace Track

theorem current_storeCurrent (k : Track width buckets) (view : Color) (s : Sums width buckets) :
    (k.storeCurrent view s).current = k.current.store view s := by
  rcases k with ⟨root, plies, spare, cache⟩
  cases plies <;> rfl

theorem half_current_replay? (h : replay? t king view k.root k.plies = some (s, plies')) :
    ({ k with plies := plies' }.current.half view).computed = true ∧
      ∀ v, v ≠ view → { k with plies := plies' }.current.half v = k.current.half v := by
  rcases k with ⟨root, plies, spare, cache⟩
  cases plies with
  | nil =>
    rw [replay?] at h
    split at h
    · next hcomputed =>
      obtain ⟨rfl, rfl⟩ := Prod.mk.inj (Option.some.inj h)
      exact ⟨hcomputed, fun v _ => rfl⟩
    · cases h
  | cons x plies =>
    obtain ⟨m, a⟩ := x
    rw [replay?] at h
    split at h
    · next hcomputed =>
      obtain ⟨rfl, rfl⟩ := Prod.mk.inj (Option.some.inj h)
      exact ⟨hcomputed, fun v _ => rfl⟩
    · split at h
      · cases h
      · obtain ⟨⟨before, rest⟩, -, h⟩ := Option.map_eq_some_iff.mp h
        obtain ⟨rfl, rfl⟩ := Prod.mk.inj h
        exact ⟨by simp [current], fun v hv => by simp [current, hv]⟩

/-- The track belongs to the positions of a line, the latest first. -/
structure Valid (k : Track width buckets) (t : Transformer F width buckets)
    (ps : List Position) : Prop where
  tracks : Tracks t k.root k.plies ps
  cache : k.cache.Valid t

theorem Valid.current (h : k.Valid t (p :: ps)) : k.current.Holds t p := by
  rcases k with ⟨root, plies, spare, cache⟩
  cases h.tracks with
  | root _ hroot => exact hroot
  | ply _ _ _ _ _ ha => exact ha

theorem Valid.storeCurrent (h : k.Valid t (p :: ps)) (hs : t.refresh? p view = some s) :
    (k.storeCurrent view s).Valid t (p :: ps) := by
  rcases k with ⟨root, plies, spare, cache⟩
  refine ⟨?_, ?_⟩
  · cases h.tracks with
    | root hp hroot => exact .root hp (hroot.store hs)
    | ply htracks hp hfollows hthreats hchange ha =>
      exact .ply htracks hp hfollows hthreats hchange (ha.store hs)
  · cases plies <;> exact h.cache

/-- Bringing one side up to date works, keeps the track valid and the other side as it is. -/
theorem Valid.bring? (h : k.Valid t (p :: ps)) (view : Color) :
    ∃ k', bring? t p view k = some k' ∧ k'.Valid t (p :: ps) ∧
      (k'.current.half view).computed = true ∧
      ∀ v, v ≠ view → k'.current.half v = k.current.half v := by
  rw [Track.bring?]
  split
  · next hcomputed => exact ⟨k, rfl, h, hcomputed, fun _ _ => rfl⟩
  · obtain ⟨king, hking, -⟩ := h.tracks.sound.exists_king view
    simp only [hking, Option.bind_eq_bind, Option.bind_some, Option.pure_def]
    split
    · next s plies hr =>
      obtain ⟨-, htracks⟩ := h.tracks.replay? hking hr
      obtain ⟨hcomputed, hother⟩ := half_current_replay? hr
      exact ⟨_, rfl, ⟨htracks, h.cache⟩, hcomputed, hother⟩
    · obtain ⟨s, cache, hs, hrefresh, hcache⟩ := h.cache.refresh? hking
      rw [hs]
      have hk : ({ k with cache := cache }).Valid t (p :: ps) := ⟨h.tracks, hcache⟩
      refine ⟨_, rfl, hk.storeCurrent hrefresh, ?_, fun v hv => ?_⟩
      · rw [current_storeCurrent, Accumulator.half_store, if_pos rfl]
      · rw [current_storeCurrent, Accumulator.half_store, if_neg hv]
        rfl

/-- An update works, keeps the track valid and leaves both sides computed. -/
theorem Valid.update? (h : k.Valid t (p :: ps)) :
    ∃ k', update? t p k = some k' ∧ k'.Valid t (p :: ps) ∧
      ∀ view, (k'.current.half view).computed = true := by
  obtain ⟨k₁, hk₁, h₁, hwhite, -⟩ := h.bring? .white
  obtain ⟨k₂, hk₂, h₂, hblack, hother⟩ := h₁.bring? .black
  refine ⟨k₂, ?_, h₂, fun view => ?_⟩
  · simp only [Track.update?, hk₁, Option.bind_eq_bind, Option.bind_some, hk₂]
  · cases view with
    | white => rw [hother .white (by decide), hwhite]
    | black => exact hblack

/-- Whatever was on the accumulator that a move is put on, it does not count as computed. -/
theorem Valid.push (h : k.Valid t (p :: ps)) (hq : q.Sound) (hf : Follows p m.change q)
    (hthreats : m.threats = Threat.sorted q)
    (hchange : m.threatChange = .between (Threat.sorted p) (Threat.sorted q)) :
    (k.push m).Valid t (q :: p :: ps) := by
  rcases k with ⟨root, plies, spare, cache⟩
  cases spare with
  | nil =>
    refine ⟨.ply h.tracks hq hf hthreats hchange fun v hv => ?_, h.cache⟩
    rw [Accumulator.computed_blank] at hv
    cases hv
  | cons a spare =>
    refine ⟨.ply h.tracks hq hf hthreats hchange fun v hv => ?_, h.cache⟩
    rw [Accumulator.computed_invalidate] at hv
    cases hv

theorem Valid.pop? (h : k.Valid t (q :: p :: ps)) : ∃ k', k.pop? = some k' ∧ k'.Valid t (p :: ps) := by
  rcases k with ⟨root, plies, spare, cache⟩
  cases h.tracks with
  | ply htracks => exact ⟨_, rfl, htracks, h.cache⟩

/-- A reset gives a valid track, whatever was there before. -/
theorem exists_reset? (hp : p.Sound) (t : Transformer F width buckets) (k : Track width buckets) :
    ∃ k', k.reset? t p = some k' ∧ k'.Valid t [p] := by
  obtain ⟨white, hwhite, -⟩ := hp.exists_king .white
  obtain ⟨black, hblack, -⟩ := hp.exists_king .black
  obtain ⟨w, cache₁, hw, hrw, hcache₁⟩ := (RefreshCache.valid_fresh t).refresh? hwhite
  obtain ⟨b, cache₂, hb, hrb, hcache₂⟩ := hcache₁.refresh? hblack
  refine ⟨⟨(k.root.invalidate.store .white w).store .black b, [], [], cache₂⟩, ?_, ?_⟩
  · simp only [reset?, hw, hb, Option.bind_eq_bind, Option.bind_some, Option.pure_def]
  · refine ⟨.root hp ?_, hcache₂⟩
    have hn : (k.root.invalidate).Holds t p := fun v hv => by
      rw [Accumulator.computed_invalidate] at hv
      cases hv
    exact (hn.store hrw).store hrb

end Track

end ChessEval
