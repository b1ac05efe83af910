import ChessEval.Network.Synthetic
import ChessEval.Proofs.Board.Reading
import ChessEval.Proofs.Network.Tracking

/-! Many refreshes through one cache, of positions that have nothing to do with each other. -/
namespace ChessEval

open Position

variable {F : FeatureSet} {width buckets : Nat} {t : Transformer F width buckets}

/-- One call: a position, the side to refresh, and an accumulator to write to. -/
structure RefreshCall (width buckets : Nat) where
  position : Position
  view : Color
  accumulator : Accumulator width buckets

namespace RefreshCall

variable {x : RefreshCall width buckets} {a : Accumulator width buckets}

/-- The accumulator that a call leaves: one half as computed from scratch, the other untouched. -/
structure Answered (t : Transformer F width buckets) (x : RefreshCall width buckets)
    (a : Accumulator width buckets) : Prop where
  refreshed : ∃ s, t.refresh? x.position x.view = some s ∧ a.half x.view = ⟨s, true⟩
  untouched : a.half x.view.opponent = x.accumulator.half x.view.opponent

end RefreshCall

namespace RefreshCache

variable {cache : RefreshCache width buckets} {x : RefreshCall width buckets}
  {calls : List (RefreshCall width buckets)}

/-- One call after the other, each through the cache that the calls before have left. -/
def refreshAll? (t : Transformer F width buckets) :
    RefreshCache width buckets → List (RefreshCall width buckets) →
      Option (List (Accumulator width buckets) × RefreshCache width buckets)
  | cache, [] => some ([], cache)
  | cache, x :: calls => do
    let (a, cache) ← cache.refreshInto? t x.position x.view x.accumulator
    let (rest, cache) ← cache.refreshAll? t calls
    return (a :: rest, cache)

theorem Valid.refreshInto? (h : cache.Valid t) (hx : x.position.king? x.view ≠ none) :
    ∃ a cache', cache.refreshInto? t x.position x.view x.accumulator = some (a, cache') ∧
      x.Answered t a ∧ cache'.Valid t := by
  obtain ⟨king, hking⟩ := Option.ne_none_iff_exists'.mp hx
  obtain ⟨s, cache', hs, hrefresh, hvalid⟩ := h.refresh? hking
  refine ⟨x.accumulator.store x.view s, cache', ?_, ⟨⟨s, hrefresh, ?_⟩, ?_⟩, hvalid⟩
  · rw [RefreshCache.refreshInto?, hs]
    rfl
  · rw [Accumulator.half_store, if_pos rfl]
  · rw [Accumulator.half_store, if_neg x.view.opponent_ne_self]

theorem Valid.refreshAll? (h : cache.Valid t) (hx : ∀ x ∈ calls, x.position.king? x.view ≠ none) :
    ∃ results cache', cache.refreshAll? t calls = some (results, cache') ∧
      List.Forall₂ (RefreshCall.Answered t) calls results ∧ cache'.Valid t := by
  induction calls generalizing cache with
  | nil => exact ⟨[], cache, rfl, .nil, h⟩
  | cons x calls ih =>
    obtain ⟨hfirst, hrest⟩ := List.forall_mem_cons.mp hx
    obtain ⟨a, cache₁, ha, hanswered, hvalid₁⟩ := h.refreshInto? hfirst
    obtain ⟨results, cache₂, hresults, hall, hvalid₂⟩ := ih hvalid₁ hrest
    refine ⟨a :: results, cache₂, ?_, .cons hanswered hall, hvalid₂⟩
    simp [RefreshCache.refreshAll?, ha, hresults]

/-- Whatever positions are refreshed through a new cache, for whichever sides and in whatever order,
each call gives its half the sums computed from scratch and leaves the other half alone. -/
theorem cached_refreshes_are_exact (t : Transformer F width buckets)
    (calls : List (RefreshCall width buckets))
    (hkings : ∀ x ∈ calls, ∀ c, x.position.king? c ≠ none) :
    ∃ results cache', (fresh t).refreshAll? t calls = some (results, cache') ∧
      List.Forall₂ (RefreshCall.Answered t) calls results := by
  obtain ⟨results, cache', hresults, hall, -⟩ :=
    (valid_fresh t).refreshAll? fun x hx => hkings x hx x.view
  exact ⟨results, cache', hresults, hall⟩

/-- Kings on the files next to the middle have one class and mirrored frames. -/
theorem cached_refreshes_are_exact_of_twins : ∃ p q,
    ofFen "4k3/pp6/8/8/8/8/5PPP/3K4 w - - 0 1" = .ok p ∧
    ofFen "4k3/pp6/8/8/8/8/5PPP/4K3 w - - 0 1" = .ok q ∧
    p.king? .white = some 3 ∧ q.king? .white = some 4 ∧
    Feature.kingBucket .white 3 = Feature.kingBucket .white 4 ∧
    Feature.isMirrored 3 ≠ Feature.isMirrored 4 ∧
    let t := (BigNetwork.synthetic 5).transformer
    let calls := [⟨p, .white, .blank⟩, ⟨q, .white, .blank⟩, ⟨q, .black, .blank⟩, ⟨p, .white, .blank⟩]
    ∃ results cache', (fresh t).refreshAll? t calls = some (results, cache') ∧
      List.Forall₂ (RefreshCall.Answered t) calls results := by
  obtain ⟨p, hp, hpk⟩ := exists_of_ofFen "4k3/pp6/8/8/8/8/5PPP/3K4 w - - 0 1"
    (fun p => p.king? .white = some 3 ∧ p.king? .black = some 60) (by decide +kernel)
  obtain ⟨q, hq, hqk⟩ := exists_of_ofFen "4k3/pp6/8/8/8/8/5PPP/4K3 w - - 0 1"
    (fun q => q.king? .white = some 4 ∧ q.king? .black = some 60) (by decide +kernel)
  obtain ⟨hpw, hpb⟩ := of_decide_eq_true hpk
  obtain ⟨hqw, hqb⟩ := of_decide_eq_true hqk
  refine ⟨p, q, hp, hq, hpw, hqw, by decide, by decide, cached_refreshes_are_exact _ _ ?_⟩
  intro x hx c
  simp only [List.mem_cons, List.not_mem_nil, or_false] at hx
  rcases hx with rfl | rfl | rfl | rfl <;> cases c <;> simp [hpw, hpb, hqw, hqb]

end RefreshCache

end ChessEval
