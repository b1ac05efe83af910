import ChessEval.Proofs.File.FullFiles
import ChessEval.Session.Store

/-! What loading finds: for each class the first file of the requested name that holds a network,
unless the class was loaded from that name before. -/
namespace ChessEval

variable {files : Files} {o : FileOptions} {c c' : NetworkClass} {name path : String}
  {file : ByteArray} {directories paths earlier later : List String} {n : Networks} {s : Store}
  {calls : List (Files × FileOptions)}

namespace NetworkClass

/-- What the files of a class hold. -/
abbrev Network : NetworkClass → Type
  | big => BigNetwork
  | small => SmallNetwork
  | classifier => Classifier

/-- The network of the class that a file holds, if it holds one. -/
def parse? : (c : NetworkClass) → ByteArray → Option c.Network
  | big, file => (BigNetwork.read file).toOption
  | small, file => (SmallNetwork.read file).toOption
  | classifier, file => (Classifier.read file).toOption

end NetworkClass

/-- The network at a path; none if the file is missing or holds no network of the class. -/
def Files.network? (files : Files) (c : NetworkClass) (path : String) : Option c.Network :=
  (files path).bind c.parse?

/-- Some directory holds a network of the class under the name. -/
def Files.Hold (files : Files) (directories : List String) (c : NetworkClass) (name : String) :
    Prop :=
  ∃ d ∈ directories, files.network? c (pathIn d name) ≠ none

/-- A directory holds the network under the name, and those before it hold none. -/
def Files.HoldFirst (files : Files) (directories : List String) (c : NetworkClass) (name : String)
    (x : c.Network) : Prop :=
  ∃ before d after, directories = before ++ d :: after ∧
    files.network? c (pathIn d name) = some x ∧
    ∀ e ∈ before, files.network? c (pathIn e name) = none

namespace Files

/-- The full file that a big network is written as is loaded as that network. -/
theorem network?_write_big {x : BigNetwork} (h : files path = some x.write)
    (hx : x.description.utf8ByteSize ≤ 1048576) : files.network? .big path = some x := by
  obtain ⟨hread, -⟩ := BigNetwork.write_eq_iff.mp ⟨rfl, hx⟩
  rw [network?, h, Option.bind_some, NetworkClass.parse?, hread]
  rfl

theorem network?_write_small {x : SmallNetwork} (h : files path = some x.write)
    (hx : x.description.utf8ByteSize ≤ 1048576) : files.network? .small path = some x := by
  obtain ⟨⟨hread, -⟩, -⟩ := SmallNetwork.write_eq_iff.mp ⟨rfl, hx⟩
  rw [network?, h, Option.bind_some, NetworkClass.parse?, hread]
  rfl

/-- The second directory holds both networks, the big one under two names; the first holds an empty
file in its place. -/
def sample : Files := fun path =>
  if path = "b/big" ∨ path = "b/None" then some (BigNetwork.sample "").write
  else if path = "b/small" then some (SmallNetwork.sample [] 0).write
  else if path = "a/big" then some .empty
  else none

theorem sample_big (h : name = "big" ∨ name = "None") :
    sample.Hold ["a", "b"] .big name := by
  have hname : pathIn "b" name = "b/big" ∨ pathIn "b" name = "b/None" := by
    rcases h with rfl | rfl <;> decide
  have hpath : sample (pathIn "b" name) = some (BigNetwork.sample "").write := if_pos hname
  exact ⟨"b", by simp, by simp [network?_write_big hpath (by decide)]⟩

theorem sample_small : sample.Hold ["a", "b"] .small "small" := by
  have hpath : sample (pathIn "b" "small") = some (SmallNetwork.sample [] 0).write :=
    (if_neg (by decide)).trans (if_pos (by decide))
  exact ⟨"b", by simp, by simp [network?_write_small hpath (by decide)]⟩

end Files

namespace Identity

@[simp] theorem get_set (i : Identity) (c c' : NetworkClass) (name : String) :
    (i.set c name).get c' = if c' = c then name else i.get c' := by
  cases c <;> cases c' <;> rfl

end Identity

namespace Store

/-- A class's network and the name that it was loaded from. -/
def slot (s : Store) : (c : NetworkClass) → Option c.Network × String
  | .big => (s.big, s.identity.big)
  | .small => (s.small, s.identity.small)
  | .classifier => (s.classifier, s.identity.classifier)

/-- The store with a class's network under a name. -/
def withNetwork (s : Store) (name : String) : (c : NetworkClass) → c.Network → Store
  | .big, x => { s with big := some x, identity := s.identity.set .big name }
  | .small, x => { s with small := some x, identity := s.identity.set .small name }
  | .classifier, x =>
    { s with classifier := some x, identity := s.identity.set .classifier name }

theorem slot_snd (s : Store) (c : NetworkClass) : (s.slot c).2 = s.identity.get c := by
  cases c <;> rfl

theorem slot_eq_iff {x : Option c.Network} :
    s.slot c = (x, name) ↔ (s.slot c).1 = x ∧ (s.slot c).2 = name :=
  Prod.ext_iff

@[simp] theorem directories_withNetwork (s : Store) (name : String) (c : NetworkClass)
    (x : c.Network) : (s.withNetwork name c x).directories = s.directories := by
  cases c <;> rfl

@[simp] theorem slot_withNetwork (s : Store) (name : String) (c : NetworkClass) (x : c.Network) :
    (s.withNetwork name c x).slot c = (some x, name) := by
  cases c <;> rfl

theorem slot_withNetwork_of_ne (hc : c' ≠ c) (x : c.Network) :
    (s.withNetwork name c x).slot c' = s.slot c' := by
  cases c <;> cases c' <;> first | rfl | exact (hc rfl).elim

theorem accept?_eq : s.accept? c name file = (c.parse? file).map (s.withNetwork name c) := by
  cases c <;> rfl

theorem bind_accept?_eq :
    (files path).bind (s.accept? c name) = (files.network? c path).map (s.withNetwork name c) := by
  rw [Files.network?, Option.map_bind]
  exact congrArg _ (funext fun _ => accept?_eq)

theorem tryPaths_of_current (h : s.identity.get c = name) :
    tryPaths files c name paths s = s := by
  cases paths with
  | nil => rfl
  | cons path paths => exact if_pos h

/-- Of all paths the first that holds a network counts. -/
theorem tryPaths_eq (h : s.identity.get c ≠ name) :
    tryPaths files c name paths s =
      ((paths.findSome? (files.network? c)).map (s.withNetwork name c)).getD s := by
  induction paths with
  | nil => rfl
  | cons path paths ih =>
    rw [tryPaths, if_neg h, bind_accept?_eq, List.findSome?_cons]
    cases hx : files.network? c path with
    | none => exact ih
    | some x =>
      have hcurrent : (s.withNetwork name c x).identity.get c = name := by
        rw [← slot_snd, slot_withNetwork]
      exact tryPaths_of_current hcurrent

/-- A path that holds no network might as well not be tried, wherever it stands. -/
theorem tryPaths_strike (h : files.network? c path = none) :
    tryPaths files c name (earlier ++ path :: later) s =
      tryPaths files c name (earlier ++ later) s := by
  by_cases hs : s.identity.get c = name
  · rw [tryPaths_of_current hs, tryPaths_of_current hs]
  · rw [tryPaths_eq hs, tryPaths_eq hs]
    simp [List.findSome?_append, h]

/-- What a load reads for a class. -/
def reads? (s : Store) (files : Files) (o : FileOptions) (c : NetworkClass) : Option c.Network :=
  if s.identity.get c = o.requested c then none
  else (s.candidates (o.requested c)).findSome? (files.network? c)

theorem loadClass_eq : loadClass files o s c =
    ((s.reads? files o c).map (s.withNetwork (o.requested c) c)).getD s := by
  rw [loadClass, reads?]
  split
  · next h => exact tryPaths_of_current h
  · next h => exact tryPaths_eq h

theorem directories_loadClass : (loadClass files o s c).directories = s.directories := by
  rw [loadClass_eq]
  cases s.reads? files o c with
  | none => rfl
  | some x => exact directories_withNetwork ..

theorem slot_loadClass : (loadClass files o s c).slot c =
    ((s.reads? files o c).map fun x => (some x, o.requested c)).getD (s.slot c) := by
  rw [loadClass_eq]
  cases s.reads? files o c with
  | none => rfl
  | some x => exact slot_withNetwork ..

/-- Loading a class leaves the others alone. -/
theorem slot_loadClass_of_ne (hc : c' ≠ c) : (loadClass files o s c).slot c' = s.slot c' := by
  rw [loadClass_eq]
  cases s.reads? files o c with
  | none => rfl
  | some x => exact slot_withNetwork_of_ne hc x

theorem reads?_loadClass_of_ne (hc : c' ≠ c) :
    (loadClass files o s c).reads? files o c' = s.reads? files o c' := by
  rw [reads?, reads?, candidates, candidates, directories_loadClass, ← slot_snd,
    slot_loadClass_of_ne hc, slot_snd]

theorem directories_load : (s.load files o).directories = s.directories := by
  simp only [load, NetworkClass.all, List.foldl_cons, List.foldl_nil, directories_loadClass]

/-- A load replaces a class's network by what it reads, and keeps it where it reads nothing. -/
theorem slot_load : (s.load files o).slot c =
    ((s.reads? files o c).map fun x => (some x, o.requested c)).getD (s.slot c) := by
  simp only [load, NetworkClass.all, List.foldl_cons, List.foldl_nil]
  cases c with
  | big =>
    rw [slot_loadClass_of_ne (by decide), slot_loadClass_of_ne (by decide), slot_loadClass]
  | small =>
    rw [slot_loadClass_of_ne (by decide), slot_loadClass, reads?_loadClass_of_ne (by decide),
      slot_loadClass_of_ne (by decide)]
  | classifier =>
    rw [slot_loadClass, reads?_loadClass_of_ne (by decide), reads?_loadClass_of_ne (by decide),
      slot_loadClass_of_ne (by decide), slot_loadClass_of_ne (by decide)]

theorem slot_load_of_read {x : c.Network} (h : s.reads? files o c = some x) :
    (s.load files o).slot c = (some x, o.requested c) := by
  rw [slot_load, h, Option.map_some, Option.getD_some]

theorem slot_load_of_no_read (h : s.reads? files o c = none) :
    (s.load files o).slot c = s.slot c := by
  rw [slot_load, h, Option.map_none, Option.getD_none]

theorem reads?_eq_some_iff {x : c.Network} : s.reads? files o c = some x ↔
    s.identity.get c ≠ o.requested c ∧ files.HoldFirst s.directories c (o.requested c) x := by
  rw [reads?, Option.ite_none_left_eq_some, candidates, List.findSome?_map,
    List.findSome?_eq_some_iff]
  rfl

theorem reads?_eq_none_iff : s.reads? files o c = none ↔
    s.identity.get c = o.requested c ∨ ¬ files.Hold s.directories c (o.requested c) := by
  rw [reads?, Files.Hold]
  split
  · next h => simp [h]
  · next h => simp [h, candidates]

/-- The store after some loads, each with its own files and options. -/
def afterLoads (directories : List String) (calls : List (Files × FileOptions)) : Store :=
  calls.foldl (fun s (files, o) => s.load files o) (.empty directories)

/-- The network was read for the class by one of the loads, from the first file of the name then
held, while the class was not loaded from that name, and no load after it replaced it. -/
def LoadedBy (directories : List String) (calls : List (Files × FileOptions)) (c : NetworkClass)
    (name : String) (x : c.Network) : Prop :=
  ∃ before files o after, calls = before ++ (files, o) :: after ∧ o.requested c = name ∧
    (afterLoads directories before).identity.get c ≠ name ∧
    files.HoldFirst directories c name x ∧
    ∀ l, l <+: after →
      (afterLoads directories (before ++ (files, o) :: l)).slot c = (some x, name)

theorem afterLoads_concat : afterLoads directories (calls ++ [(files, o)]) =
    (afterLoads directories calls).load files o := by
  rw [afterLoads, List.foldl_append]
  rfl

theorem directories_afterLoads : (afterLoads directories calls).directories = directories := by
  induction calls using List.reverseRecOn with
  | nil => rfl
  | append_singleton calls call ih => rw [afterLoads_concat, directories_load, ih]

theorem LoadedBy.concat {x : c.Network} (h : LoadedBy directories calls c name x)
    (hkept : (afterLoads directories (calls ++ [(files, o)])).slot c = (some x, name)) :
    LoadedBy directories (calls ++ [(files, o)]) c name x := by
  obtain ⟨before, files', o', after, rfl, hname, hnew, hfirst, hlater⟩ := h
  refine ⟨before, files', o', after ++ [(files, o)], by simp, hname, hnew, hfirst, fun l hl => ?_⟩
  rcases List.prefix_concat_iff.mp hl with rfl | hl
  · rw [List.append_assoc] at hkept
    exact hkept
  · exact hlater l hl

/-- A class holds nothing under the name for nothing, or what one of the loads read. -/
theorem slot_afterLoads_cases (directories : List String) (calls : List (Files × FileOptions))
    (c : NetworkClass) :
    (afterLoads directories calls).slot c = (none, "None") ∨
      ∃ name x, (afterLoads directories calls).slot c = (some x, name) ∧
        LoadedBy directories calls c name x := by
  induction calls using List.reverseRecOn with
  | nil =>
    left
    cases c <;> rfl
  | append_singleton calls call ih =>
    obtain ⟨files, o⟩ := call
    cases hread : (afterLoads directories calls).reads? files o c with
    | none =>
      have hkept : (afterLoads directories (calls ++ [(files, o)])).slot c =
          (afterLoads directories calls).slot c := by
        rw [afterLoads_concat, slot_load_of_no_read hread]
      rw [hkept]
      refine ih.imp_right fun ⟨name, x, hx, h⟩ => ⟨name, x, hx, h.concat ?_⟩
      rw [hkept, hx]
    | some x =>
      right
      have hx : (afterLoads directories (calls ++ [(files, o)])).slot c =
          (some x, o.requested c) := by
        rw [afterLoads_concat, slot_load_of_read hread]
      obtain ⟨hnew, hfirst⟩ := reads?_eq_some_iff.mp hread
      rw [directories_afterLoads] at hfirst
      refine ⟨o.requested c, x, hx, calls, files, o, [], rfl, rfl, hnew, hfirst, fun l hl => ?_⟩
      rw [List.prefix_nil.mp hl, hx]

theorem loadedBy_of_slot {x : c.Network}
    (h : (afterLoads directories calls).slot c = (some x, name)) :
    LoadedBy directories calls c name x := by
  rcases slot_afterLoads_cases directories calls c with hn | ⟨name', x', hx, hl⟩
  · rw [hn] at h
    cases h
  · obtain ⟨hx', rfl⟩ := Prod.mk.inj (hx.symm.trans h)
    exact Option.some.inj hx' ▸ hl

/-- The bundle holds the networks loaded from the requested names, a classifier if there is one. -/
theorem verify_eq_ok_iff : s.verify o = .ok n ↔
    s.slot .big = (some n.big, o.requested .big) ∧
    s.slot .small = (some n.small, o.requested .small) ∧
    n.classifier = (if (s.slot .classifier).2 = o.requested .classifier then
      (s.slot .classifier).1 else none) ∧ n.identity = s.identity := by
  obtain ⟨big, small, classifier, identity⟩ := n
  rw [slot_eq_iff, slot_eq_iff, slot_snd, slot_snd, slot_snd]
  change _ ↔ (s.big = some big ∧ _) ∧ (s.small = some small ∧ _) ∧
    classifier = (if _ then s.classifier else none) ∧ _
  simp only [verify, isCurrent, Bool.not_eq_true', beq_eq_false_iff_ne, beq_iff_eq]
  by_cases hb : s.identity.get .big = o.requested .big
  · by_cases hs : s.identity.get .small = o.requested .small
    · cases s.big <;> cases s.small <;> simp [hb, hs, eq_comm]
    · simp [hb, hs]
  · simp [hb]

end Store

end ChessEval
