import ChessEval.Proofs.Session.Availability

/-! Runs of a registry: where the networks of a published bundle come from, and which bundle is the
current one. -/
namespace ChessEval.Registry

variable {directories : List String} {ops : List Operation} {op : Operation} {r : Registry}

inductive Operation where
  /-- Reloading, with the files as they are then. -/
  | reload (files : Files) (o : FileOptions)
  | install (n : Networks)

def perform (r : Registry) : Operation → Registry
  | .reload files o => (r.reload files o).2
  | .install n => r.install n

/-- The bundle that an operation publishes; none where a reload fails. -/
def publishes? (r : Registry) : Operation → Option Networks
  | .reload files o => (r.reload files o).1.toOption
  | .install n => some n

/-- The registry after some operations, nothing loaded before them. -/
def after (directories : List String) (ops : List Operation) : Registry :=
  ops.foldl perform (.empty directories)

/-- The bundles that operations publish, in their order. -/
def published : Registry → List Operation → List Networks
  | _, [] => []
  | r, op :: ops => (r.publishes? op).toList ++ published (r.perform op) ops

/-- The loads among some operations. -/
def loads (ops : List Operation) : List (Files × FileOptions) :=
  ops.filterMap fun
    | .reload files o => some (files, o)
    | .install _ => none

theorem reload_eq (r : Registry) (files : Files) (o : FileOptions) :
    (r.reload files o).1 = (r.store.load files o).verify o ∧
      (r.reload files o).2 = ⟨r.store.load files o,
        ((r.store.load files o).verify o).toOption.or r.current⟩ := by
  simp only [reload]
  generalize r.store.load files o = s
  cases s.verify o <;> exact ⟨rfl, rfl⟩

/-- An operation that publishes nothing leaves the current bundle. -/
theorem current_perform (r : Registry) (op : Operation) :
    (r.perform op).current = (r.publishes? op).or r.current := by
  cases op with
  | reload files o =>
    obtain ⟨hresult, hnext⟩ := r.reload_eq files o
    rw [perform, publishes?, hresult, hnext]
  | install n => rfl

theorem current_foldl (r : Registry) (ops : List Operation) :
    (ops.foldl perform r).current = (r.published ops).getLast?.or r.current := by
  induction ops generalizing r with
  | nil => rfl
  | cons op ops ih =>
    rw [List.foldl_cons, ih, current_perform, published, List.getLast?_append, ← Option.or_assoc]
    cases r.publishes? op <;> rfl

theorem store_after (directories : List String) (ops : List Operation) :
    (after directories ops).store = Store.afterLoads directories (loads ops) := by
  induction ops using List.reverseRecOn with
  | nil => rfl
  | append_singleton ops op ih =>
    rw [after, List.foldl_append, ← after, loads, List.filterMap_append, ← loads]
    cases op with
    | reload files o =>
      rw [List.foldl_cons, List.foldl_nil, perform, (reload_eq ..).2, ih]
      exact Store.afterLoads_concat.symm
    | install n => simpa [perform, install] using ih

/-- Where the networks of a reloaded bundle come from. -/
theorem loadedBy_of_reload {files : Files} {o : FileOptions} {n : Networks}
    (h : ((after directories ops).reload files o).1 = .ok n) :
    let calls := loads ops ++ [(files, o)]
    Store.LoadedBy directories calls .big (o.requested .big) n.big ∧
      Store.LoadedBy directories calls .small (o.requested .small) n.small ∧
      ∀ k, n.classifier = some k →
        Store.LoadedBy directories calls .classifier (o.requested .classifier) k := by
  rw [(reload_eq ..).1, store_after, ← Store.afterLoads_concat, Store.verify_eq_ok_iff] at h
  obtain ⟨hbig, hsmall, hclassifier, -⟩ := h
  refine ⟨Store.loadedBy_of_slot hbig, Store.loadedBy_of_slot hsmall, fun k hk => ?_⟩
  rw [hk] at hclassifier
  split at hclassifier
  · next hname => exact Store.loadedBy_of_slot (Store.slot_eq_iff.mpr ⟨hclassifier.symm, hname⟩)
  · cases hclassifier

/-- Over any run of a registry, each network of a reloaded bundle is the one that the load which set
its class read from the first directory that held one under the requested name, a path that holds no
network might as well not be tried, and the current bundle is the one published last, which a failed
reload leaves in place. -/
theorem reloads_publish_what_was_read (directories : List String) (ops : List Operation) :
    (∀ files o n, ((after directories ops).reload files o).1 = .ok n →
      let calls := loads ops ++ [(files, o)]
      Store.LoadedBy directories calls .big (o.requested .big) n.big ∧
        Store.LoadedBy directories calls .small (o.requested .small) n.small ∧
        ∀ k, n.classifier = some k →
          Store.LoadedBy directories calls .classifier (o.requested .classifier) k) ∧
    (∀ (s : Store) (files : Files) c name path, files.network? c path = none → ∀ earlier later,
      s.tryPaths files c name (earlier ++ path :: later) =
        s.tryPaths files c name (earlier ++ later)) ∧
    (after directories ops).current = (published (.empty directories) ops).getLast? ∧
    ∀ files o e, ((after directories ops).reload files o).1 = .error e →
      ((after directories ops).reload files o).2.current = (after directories ops).current := by
  refine ⟨fun _ _ _ => loadedBy_of_reload, fun _ _ _ _ _ h _ _ => Store.tryPaths_strike h, ?_,
    fun files o e h => ?_⟩
  · rw [after, current_foldl]
    exact Option.or_none
  · have hcurrent := (after directories ops).current_perform (.reload files o)
    rw [perform, publishes?, h] at hcurrent
    exact hcurrent

/-- After a reload that finds no file, the second directory's networks are loaded, past the empty
file in the first. -/
theorem reloads_publish_what_was_read_of_sample :
    let o : FileOptions := ⟨"big", "small", ""⟩
    let ops : List Operation := [.reload (fun _ => none) o]
    let calls := loads ops ++ [(Files.sample, o)]
    Files.sample.network? .big (pathIn "a" "big") = none ∧
    ∃ n, ((after ["a", "b"] ops).reload Files.sample o).1 = .ok n ∧
      Store.LoadedBy ["a", "b"] calls .big (o.requested .big) n.big ∧
      Store.LoadedBy ["a", "b"] calls .small (o.requested .small) n.small := by
  intro o ops calls
  have hbig : o.requested .big = "big" := by decide
  have hsmall : o.requested .small = "small" := by decide
  have hfound : ∃ n, ((after ["a", "b"] ops).reload Files.sample o).1 = .ok n := by
    rw [(reload_eq ..).1, store_after, Store.exists_verify_load (Files.sample_big (.inl hbig))
      (hsmall ▸ Files.sample_small)]
    refine ⟨fun h => ?_, fun h => ?_⟩
    · exact absurd (hbig.symm.trans h.1) (by decide)
    · exact absurd (hsmall.symm.trans h.1) (by decide)
  obtain ⟨n, hn⟩ := hfound
  obtain ⟨hb, hs, -⟩ := (reloads_publish_what_was_read ["a", "b"] ops).1 _ _ _ hn
  refine ⟨?_, n, hn, hb, hs⟩
  have hpath : Files.sample (pathIn "a" "big") = some .empty :=
    (if_neg (by decide)).trans ((if_neg (by decide)).trans (if_pos (by decide)))
  exact congrArg (·.bind (NetworkClass.parse? .big)) hpath

end ChessEval.Registry
