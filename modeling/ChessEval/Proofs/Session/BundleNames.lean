import ChessEval.Proofs.File.ClassifierFiles
import ChessEval.Proofs.Session.Availability

/-! The names that a bundle gives for its networks. A classifier that is left out for its name still
lends the bundle that name. -/
namespace ChessEval

variable {directories : List String} {calls : List (Files × FileOptions)} {files : Files}
  {o : FileOptions} {n : Networks} {c : NetworkClass} {s : Store}

/-- The names are those of the requested files, and None in place of a classifier that the bundle
has not. -/
def Networks.NamedFor (n : Networks) (o : FileOptions) : Prop :=
  n.identity.get .big = o.requested .big ∧ n.identity.get .small = o.requested .small ∧
    n.identity.get .classifier = if n.classifier = none then "None" else o.requested .classifier

namespace Files

theorem network?_write_classifier {path : String} {x : Classifier}
    (h : files path = some x.write) (hx : Classifier.Sized x.h1 x.h2) :
    files.network? .classifier path = some x := by
  rw [network?, h, Option.bind_some, NetworkClass.parse?, Classifier.read_eq_ok_iff.mpr ⟨hx, rfl⟩]
  rfl

/-- The sample networks, with a classifier beside them. -/
def sampleOfThree : Files := fun path =>
  if path = "b/classifier" then some Classifier.sample.write else sample path

theorem sampleOfThree_hold {name : String} (h : sample.Hold ["a", "b"] c name)
    (hname : pathIn "a" name ≠ "b/classifier" ∧ pathIn "b" name ≠ "b/classifier") :
    sampleOfThree.Hold ["a", "b"] c name := by
  obtain ⟨d, hd, hnetwork⟩ := h
  have hpath : pathIn d name ≠ "b/classifier" := by
    rcases List.mem_pair.mp hd with rfl | rfl
    · exact hname.1
    · exact hname.2
  refine ⟨d, hd, ?_⟩
  rwa [network?, sampleOfThree, if_neg hpath]

theorem sampleOfThree_classifier : sampleOfThree.Hold ["a", "b"] .classifier "classifier" := by
  have hpath : sampleOfThree (pathIn "b" "classifier") = some Classifier.sample.write :=
    if_pos (by decide)
  have hsized : Classifier.Sized Classifier.sample.h1 Classifier.sample.h2 :=
    ⟨⟨by decide, by decide⟩, by decide, by decide⟩
  exact ⟨"b", by simp, by simp [network?_write_classifier hpath hsized]⟩

end Files

namespace Store

/-- The classifier held is from a file that is neither the requested one nor called None. -/
def HoldsOther (s : Store) (o : FileOptions) : Prop :=
  ∃ k name, s.slot .classifier = (some k, name) ∧ name ≠ o.requested .classifier ∧ name ≠ "None"

theorem name_of_slot {x : Option c.Network} {name : String} (h : s.verify o = .ok n)
    (hslot : s.slot c = (x, name)) : n.identity.get c = name := by
  obtain ⟨-, -, -, hidentity⟩ := verify_eq_ok_iff.mp h
  rw [hidentity, ← slot_snd, hslot]

theorem slot_of_classifier {k : Classifier} (h : s.verify o = .ok n) (hk : n.classifier = some k) :
    s.slot .classifier = (some k, o.requested .classifier) := by
  obtain ⟨-, -, hclassifier, -⟩ := verify_eq_ok_iff.mp h
  rw [hk] at hclassifier
  obtain ⟨hname, hslot⟩ := Option.ite_none_right_eq_some.mp hclassifier.symm
  exact slot_eq_iff.mpr ⟨hslot, hname⟩

/-- A classifier is left out if there is none or if it is from another file. -/
theorem classifier_eq_none_iff (h : s.verify o = .ok n) : n.classifier = none ↔
    ((s.slot .classifier).2 = o.requested .classifier → (s.slot .classifier).1 = none) := by
  obtain ⟨-, -, hclassifier, -⟩ := verify_eq_ok_iff.mp h
  rw [hclassifier]
  split <;> simp_all

/-- Whether another classifier is held can be told by the name alone. -/
theorem holdsOther_iff : (afterLoads directories calls).HoldsOther o ↔
    ((afterLoads directories calls).slot .classifier).2 ≠ o.requested .classifier ∧
      ((afterLoads directories calls).slot .classifier).2 ≠ "None" := by
  constructor
  · rintro ⟨k, name, hslot, hother, hnone⟩
    rw [hslot]
    exact ⟨hother, hnone⟩
  · rintro ⟨hother, hnone⟩
    rcases slot_afterLoads_cases directories calls .classifier with hslot | ⟨name, k, hslot, -⟩
    · rw [hslot] at hnone
      exact (hnone rfl).elim
    · rw [hslot] at hother hnone
      exact ⟨k, name, hslot, hother, hnone⟩

theorem namedFor_iff (h : (afterLoads directories calls).verify o = .ok n) :
    n.NamedFor o ↔ ¬ (afterLoads directories calls).HoldsOther o := by
  obtain ⟨hbig, hsmall, -, -⟩ := verify_eq_ok_iff.mp h
  have hname : n.identity.get .classifier = ((afterLoads directories calls).slot .classifier).2 :=
    name_of_slot h rfl
  rw [Networks.NamedFor, and_iff_right (name_of_slot h hbig), and_iff_right (name_of_slot h hsmall),
    hname, holdsOther_iff]
  cases hclassifier : n.classifier with
  | some k => simp [slot_of_classifier h hclassifier]
  | none =>
    have hleft := (classifier_eq_none_iff h).mp hclassifier
    -- Without a classifier in the bundle the requested name is met only by that of nothing loaded.
    have hrequested : ((afterLoads directories calls).slot .classifier).2 =
        o.requested .classifier → ((afterLoads directories calls).slot .classifier).2 = "None" :=
      fun he => name_of_slot_none (hleft he)
    rw [if_pos rfl]
    constructor
    · intro hnone hother
      exact hother.2 hnone
    · intro hother
      by_contra hnone
      exact hother ⟨fun he => hnone (hrequested he), hnone⟩

/-- A network that the files hold is loaded under the requested name, unless this is the name that
stands for nothing. -/
theorem exists_slot_load (h : files.Hold directories c (o.requested c))
    (hname : o.requested c ≠ "None") :
    ∃ x, ((afterLoads directories calls).load files o).slot c = (some x, o.requested c) := by
  have hloaded : (((afterLoads directories calls).load files o).slot c).1 ≠ none :=
    fun hnone => hname ((network_load_eq_none_iff h).mp hnone).1
  obtain ⟨x, hx⟩ := Option.ne_none_iff_exists'.mp hloaded
  exact ⟨x, slot_eq_iff.mpr ⟨hx, name_load h⟩⟩

theorem slot_load_of_no_files : (s.load (fun _ => none) o).slot c = s.slot c := by
  refine slot_load_of_no_read (reads?_eq_none_iff.mpr (.inr ?_))
  rintro ⟨d, -, hd⟩
  exact hd rfl

theorem exists_verify {x : BigNetwork} {y : SmallNetwork}
    (hbig : s.slot .big = (some x, o.requested .big))
    (hsmall : s.slot .small = (some y, o.requested .small)) : ∃ n, s.verify o = .ok n := by
  rw [exists_verify_iff (slot_eq_iff.mp hbig).2 (slot_eq_iff.mp hsmall).2,
    (slot_eq_iff.mp hbig).1, (slot_eq_iff.mp hsmall).1]
  exact ⟨nofun, nofun⟩

/-- Three networks are loaded. Then another classifier is requested, and there are no files. -/
def replacedRequest : List (Files × FileOptions) :=
  [(Files.sampleOfThree, ⟨"big", "small", "classifier"⟩), (fun _ => none, ⟨"big", "small", "other"⟩)]

theorem exists_slot_replacedRequest {name : String}
    (h : Files.sampleOfThree.Hold ["a", "b"] c name)
    (hname : FileOptions.requested ⟨"big", "small", "classifier"⟩ c = name) (hne : name ≠ "None") :
    ∃ x, (afterLoads ["a", "b"] replacedRequest).slot c = (some x, name) := by
  subst hname
  have hcalls : replacedRequest = ([] ++ [(Files.sampleOfThree, ⟨"big", "small", "classifier"⟩)]) ++
      [(fun _ => none, ⟨"big", "small", "other"⟩)] := rfl
  rw [hcalls, afterLoads_concat, afterLoads_concat, slot_load_of_no_files]
  exact exists_slot_load h hne

theorem exists_verify_replacedRequest : ∃ n k,
    (afterLoads ["a", "b"] replacedRequest).verify ⟨"big", "small", "other"⟩ = .ok n ∧
    (afterLoads ["a", "b"] replacedRequest).slot .classifier = (some k, "classifier") := by
  have hbig := Files.sampleOfThree_hold (Files.sample_big (.inl rfl)) (by decide)
  have hsmall := Files.sampleOfThree_hold Files.sample_small (by decide)
  obtain ⟨x, hx⟩ := exists_slot_replacedRequest hbig (by decide) (by decide)
  obtain ⟨y, hy⟩ := exists_slot_replacedRequest hsmall (by decide) (by decide)
  obtain ⟨k, hk⟩ :=
    exists_slot_replacedRequest Files.sampleOfThree_classifier (by decide) (by decide)
  have hbigName : FileOptions.requested ⟨"big", "small", "other"⟩ .big = "big" := by decide
  have hsmallName : FileOptions.requested ⟨"big", "small", "other"⟩ .small = "small" := by decide
  obtain ⟨n, hn⟩ := exists_verify (hx.trans (congrArg _ hbigName.symm))
    (hy.trans (congrArg _ hsmallName.symm))
  exact ⟨n, k, hn, hk⟩

/-- Over any history of loads, a bundle names the networks that it holds as they were requested and
loaded. Without a classifier it gives the name None exactly if no classifier is held from another
file; where one is, the bundle leaves it out and gives its name. -/
theorem bundles_name_networks (directories : List String) (calls : List (Files × FileOptions))
    (o : FileOptions) (n : Networks) (h : (afterLoads directories calls).verify o = .ok n) :
    (n.NamedFor o ↔ ¬ (afterLoads directories calls).HoldsOther o) ∧
    (n.identity.get .big = o.requested .big ∧
      LoadedBy directories calls .big (n.identity.get .big) n.big) ∧
    (n.identity.get .small = o.requested .small ∧
      LoadedBy directories calls .small (n.identity.get .small) n.small) ∧
    (∀ k, n.classifier = some k → n.identity.get .classifier = o.requested .classifier ∧
      LoadedBy directories calls .classifier (n.identity.get .classifier) k) ∧
    ∀ k name, (afterLoads directories calls).slot .classifier = (some k, name) →
      name ≠ o.requested .classifier → n.classifier = none ∧ n.identity.get .classifier = name := by
  obtain ⟨hbig, hsmall, -, -⟩ := verify_eq_ok_iff.mp h
  have hbigName := name_of_slot h hbig
  have hsmallName := name_of_slot h hsmall
  refine ⟨namedFor_iff h, ⟨hbigName, ?_⟩, ⟨hsmallName, ?_⟩, fun k hk => ?_,
    fun k name hslot hother => ⟨?_, name_of_slot h hslot⟩⟩
  · rw [hbigName]
    exact loadedBy_of_slot hbig
  · rw [hsmallName]
    exact loadedBy_of_slot hsmall
  · have hslot := slot_of_classifier h hk
    rw [name_of_slot h hslot]
    exact ⟨rfl, loadedBy_of_slot hslot⟩
  · rw [classifier_eq_none_iff h, (slot_eq_iff.mp hslot).2]
    exact fun he => (hother he).elim

/-- The bundle without the other classifier has the name of the one that was loaded before. -/
theorem bundles_name_networks_of_replacedRequest :
    ∃ n, (afterLoads ["a", "b"] replacedRequest).verify ⟨"big", "small", "other"⟩ = .ok n ∧
      n.identity.get .big = "big" ∧ n.identity.get .small = "small" ∧ n.classifier = none ∧
      n.identity.get .classifier = "classifier" := by
  obtain ⟨n, k, hn, hk⟩ := exists_verify_replacedRequest
  obtain ⟨-, ⟨hbig, -⟩, ⟨hsmall, -⟩, -, hother⟩ := bundles_name_networks _ _ _ n hn
  exact ⟨n, hn, hbig.trans (by decide), hsmall.trans (by decide), hother k _ hk (by decide)⟩

/-- Not every bundle without a classifier says so: it may name the one that was left out. -/
theorem left_out_classifier_named : ¬ ∀ (directories : List String)
    (calls : List (Files × FileOptions)) (o : FileOptions) (n : Networks),
    (afterLoads directories calls).verify o = .ok n → n.NamedFor o := by
  intro hall
  obtain ⟨n, k, hn, hk⟩ := exists_verify_replacedRequest
  exact (namedFor_iff hn).mp (hall _ _ _ n hn) ⟨k, "classifier", hk, by decide, by decide⟩

end Store

end ChessEval
