import ChessEval.Proofs.Session.Loading

/-! Which networks a load finds of those that the files hold: all, unless the name that stands for
nothing is asked for. -/
namespace ChessEval.Store

variable {files : Files} {o : FileOptions} {c : NetworkClass} {directories : List String}
  {calls : List (Files × FileOptions)}

/-- A file called None is requested while no network of the class is loaded, which is what this name
stands for. -/
def TakenForLoaded (s : Store) (o : FileOptions) (c : NetworkClass) : Prop :=
  o.requested c = "None" ∧ (s.slot c).1 = none

/-- Where the files hold a network of the class, the class is loaded from the requested name
afterwards, if only in name. -/
theorem name_load (h : files.Hold directories c (o.requested c)) :
    (((afterLoads directories calls).load files o).slot c).2 = o.requested c := by
  cases hread : (afterLoads directories calls).reads? files o c with
  | some x => rw [slot_load_of_read hread]
  | none =>
    rw [slot_load_of_no_read hread, slot_snd]
    rcases reads?_eq_none_iff.mp hread with hname | hnone
    · exact hname
    · rw [directories_afterLoads] at hnone
      exact (hnone h).elim

theorem name_of_slot_none (h : ((afterLoads directories calls).slot c).1 = none) :
    ((afterLoads directories calls).slot c).2 = "None" := by
  rcases slot_afterLoads_cases directories calls c with hs | ⟨name, x, hs, -⟩
  · rw [hs]
  · rw [hs] at h
    cases h

/-- The class is left without a network exactly if its name was taken for that of a loaded one. -/
theorem network_load_eq_none_iff (h : files.Hold directories c (o.requested c)) :
    (((afterLoads directories calls).load files o).slot c).1 = none ↔
      (afterLoads directories calls).TakenForLoaded o c := by
  cases hread : (afterLoads directories calls).reads? files o c with
  | some x =>
    rw [slot_load_of_read hread]
    obtain ⟨hnew, -⟩ := reads?_eq_some_iff.mp hread
    refine iff_of_false (Option.some_ne_none x) fun ⟨hname, hnone⟩ => hnew ?_
    rw [← slot_snd, name_of_slot_none hnone, hname]
  | none =>
    rw [slot_load_of_no_read hread]
    rcases reads?_eq_none_iff.mp hread with hname | hnone
    · refine ⟨fun hslot => ⟨?_, hslot⟩, fun ⟨_, hslot⟩ => hslot⟩
      rw [← hname, ← slot_snd]
      exact name_of_slot_none hslot
    · rw [directories_afterLoads] at hnone
      exact (hnone h).elim

theorem exists_verify_iff {s : Store} (hbig : (s.slot .big).2 = o.requested .big)
    (hsmall : (s.slot .small).2 = o.requested .small) :
    (∃ n, s.verify o = .ok n) ↔ (s.slot .big).1 ≠ none ∧ (s.slot .small).1 ≠ none := by
  simp only [verify_eq_ok_iff, Option.ne_none_iff_exists']
  constructor
  · rintro ⟨n, hb, hs, -⟩
    exact ⟨⟨_, (slot_eq_iff.mp hb).1⟩, _, (slot_eq_iff.mp hs).1⟩
  · rintro ⟨⟨b, hb⟩, k, hk⟩
    rw [slot_eq_iff.mpr ⟨hb, hbig⟩, slot_eq_iff.mpr ⟨hk, hsmall⟩]
    generalize (if (s.slot .classifier).2 = o.requested .classifier then (s.slot .classifier).1
      else none) = classifier
    exact ⟨⟨b, k, classifier, s.identity⟩, rfl, rfl, rfl, rfl⟩

/-- Where both networks are held under names that do not stand for nothing, a load gives a
bundle. -/
theorem exists_verify_load (hbig : files.Hold directories .big (o.requested .big))
    (hsmall : files.Hold directories .small (o.requested .small)) :
    (∃ n, ((afterLoads directories calls).load files o).verify o = .ok n) ↔
      ¬ (afterLoads directories calls).TakenForLoaded o .big ∧
        ¬ (afterLoads directories calls).TakenForLoaded o .small := by
  rw [exists_verify_iff (name_load hbig) (name_load hsmall), ne_eq, ne_eq,
    network_load_eq_none_iff hbig, network_load_eq_none_iff hsmall]

/-- Over any history of loads, a load finds the networks that the files hold under the requested
names, and the bundle has them, except where a class without a network is to be loaded from a file
called None. -/
theorem loads_find_held_networks (directories : List String) (calls : List (Files × FileOptions))
    (files : Files) (o : FileOptions) :
    let s := afterLoads directories calls
    let t := s.load files o
    (∀ c, files.Hold directories c (o.requested c) →
      t.identity.get c = o.requested c ∧ ((t.slot c).1 = none ↔ s.TakenForLoaded o c)) ∧
    (files.Hold directories .big (o.requested .big) →
      files.Hold directories .small (o.requested .small) →
      ((∃ n, t.verify o = .ok n) ↔ ¬ s.TakenForLoaded o .big ∧ ¬ s.TakenForLoaded o .small)) ∧
    (files.Hold directories .classifier (o.requested .classifier) →
      ∀ n, t.verify o = .ok n → (n.classifier = none ↔ s.TakenForLoaded o .classifier)) := by
  intro s t
  refine ⟨fun c h => ⟨?_, network_load_eq_none_iff h⟩, exists_verify_load, fun h n hn => ?_⟩
  · rw [← slot_snd]
    exact name_load h
  · obtain ⟨-, -, hclassifier, -⟩ := verify_eq_ok_iff.mp hn
    rw [hclassifier, if_pos (name_load h)]
    exact network_load_eq_none_iff h

/-- The file called None is loaded where another one was loaded before, and nowhere else. -/
theorem loads_find_held_networks_of_none :
    let o : FileOptions := ⟨"None", "small", ""⟩
    let earlier : List (Files × FileOptions) := [(Files.sample, ⟨"big", "small", ""⟩)]
    Files.sample.Hold ["a", "b"] .big (o.requested .big) ∧
    (∃ n, ((afterLoads ["a", "b"] earlier).load Files.sample o).verify o = .ok n) ∧
    ¬ ∃ n, ((afterLoads ["a", "b"] []).load Files.sample o).verify o = .ok n := by
  intro o earlier
  have hname : o.requested .big = "None" := by decide
  have hname' : o.requested .small = "small" := by decide
  have hbig := Files.sample_big (.inr hname)
  have hsmall : Files.sample.Hold ["a", "b"] .small (o.requested .small) :=
    hname' ▸ Files.sample_small
  have hempty : (afterLoads ["a", "b"] []).TakenForLoaded o .big := ⟨hname, rfl⟩
  have hloaded : ¬ (afterLoads ["a", "b"] earlier).TakenForLoaded o .big := by
    have hfirst : FileOptions.requested ⟨"big", "small", ""⟩ .big = "big" := by decide
    rintro ⟨-, hnone⟩
    rw [show earlier = [] ++ earlier from rfl, afterLoads_concat,
      network_load_eq_none_iff (Files.sample_big (.inl hfirst))] at hnone
    exact absurd (hfirst.symm.trans hnone.1) (by decide)
  have hloaded' : ¬ (afterLoads ["a", "b"] earlier).TakenForLoaded o .small := fun h =>
    absurd (hname'.symm.trans h.1) (by decide)
  refine ⟨hbig, ?_, ?_⟩
  · exact ((loads_find_held_networks _ _ _ _).2.1 hbig hsmall).mpr ⟨hloaded, hloaded'⟩
  · intro h
    obtain ⟨hnot, -⟩ := ((loads_find_held_networks _ _ _ _).2.1 hbig hsmall).mp h
    exact hnot hempty

/-- Not every network that the files hold is found: the one in a file called None is not, if it is
asked for first. -/
theorem held_network_not_found : ¬ ∀ (directories : List String)
    (calls : List (Files × FileOptions)) (files : Files) (o : FileOptions) (c : NetworkClass),
    files.Hold directories c (o.requested c) →
      (((afterLoads directories calls).load files o).slot c).1 ≠ none := by
  intro hall
  have hname : FileOptions.requested ⟨"None", "small", ""⟩ .big = "None" := by decide
  have hbig := Files.sample_big (.inr hname)
  exact hall _ [] _ _ _ hbig ((network_load_eq_none_iff hbig).mpr ⟨hname, rfl⟩)

end ChessEval.Store
