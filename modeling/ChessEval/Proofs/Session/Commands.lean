import ChessEval.Proofs.Session.Publishing
import ChessEval.Session.Session

/-! What the requests of a session change: networks that are held are the ones that the options ask
for, and the position is the one that was set up last. -/
namespace ChessEval

variable {n : Networks} {files : Files}

namespace FileOptions

@[simp] theorem set_get (o : FileOptions) (c : NetworkClass) : o.set c (o.get c) = o := by
  cases c <;> rfl

@[simp] theorem get_set (o : FileOptions) (c : NetworkClass) (name : String) :
    (o.set c name).get c = name := by
  cases c <;> rfl

theorem set_eq_self_iff {o : FileOptions} {c : NetworkClass} {name : String} :
    o.set c name = o ↔ o.get c = name := by
  constructor
  · intro h
    rw [← h, get_set]
  · rintro rfl
    exact o.set_get c

/-- An option that is named as it is stays, and asks for no other files. -/
theorem apply_of_option {o : FileOptions} {name : String} {c : NetworkClass} (value : Option String)
    (h : NetworkClass.ofOption? name = some c) : o.apply name value =
      (o.set c (trimmed (value.getD "")), decide (o.get c ≠ trimmed (value.getD ""))) := by
  simp only [apply, h]
  split
  · next hsame => rw [set_eq_self_iff.mpr hsame, decide_eq_false (not_not_intro hsame)]
  · next hother => rw [decide_eq_true hother]

end FileOptions

namespace Registry

/-- A bundle is published only under the names asked for. -/
theorem identity_of_reload {r : Registry} {o : FileOptions} (h : (r.reload files o).1 = .ok n) :
    n.identity.get .big = o.requested .big ∧ n.identity.get .small = o.requested .small := by
  rw [(r.reload_eq files o).1, Store.verify_eq_ok_iff] at h
  obtain ⟨hbig, hsmall, -, hidentity⟩ := h
  rw [hidentity, ← Store.slot_snd, ← Store.slot_snd]
  exact ⟨(Store.slot_eq_iff.mp hbig).2, (Store.slot_eq_iff.mp hsmall).2⟩

end Registry

namespace Session

/-- What a session is asked for. -/
inductive Request where
  | command (c : Command)
  /-- The value of the position. -/
  | value

namespace Request

/-- The position that a request sets up. -/
def board? : Request → Option Position
  | .command .newGame => some .initial
  | .command (.position words) => (Position.ofWords? words).bind Except.toOption
  | _ => none

/-- The class whose file a request names, and the name, which may be the one it has. -/
def naming? : Request → Option (NetworkClass × String)
  | .command (.setOption words) => do
    let x ← OptionSetting.ofWords? words
    let c ← NetworkClass.ofOption? x.name
    return (c, FileOptions.trimmed (x.value.getD ""))
  | _ => none

/-- The requests that load networks if there are none. -/
def Evaluates (r : Request) : Prop :=
  r = .command .isReady ∨ r = .command .evaluate ∨ r = .value

/-- The options after a request. -/
def options (r : Request) (o : FileOptions) : FileOptions :=
  match r.naming? with
  | some (c, name) => o.set c name
  | none => o

variable {r : Request}

theorem options_of_not_naming {o : FileOptions} (h : r.naming? = none) : r.options o = o := by
  rw [options, h]

theorem exists_setOption_of_naming (h : r.naming? ≠ none) :
    ∃ words, r = .command (.setOption words) := by
  unfold naming? at h
  split at h
  · exact ⟨_, rfl⟩
  · exact (h rfl).elim

theorem Evaluates.sets_nothing (h : r.Evaluates) : r.board? = none ∧ r.naming? = none := by
  rcases h with rfl | rfl | rfl <;> exact ⟨rfl, rfl⟩

end Request

variable {s next : Session} {r : Request} {reply : Reply}

def answer? (s : Session) (files : Files) : Request → Option (Reply × Session)
  | .command c => s.handle? files c
  | .value => (s.evaluate? files).map (·.2)

/-- The session after some requests, each with the files as they are then. -/
def after? : List (Files × Request) → Session → Option Session
  | [], s => some s
  | (files, r) :: rs, s => (s.answer? files r).bind fun (_, next) => after? rs next

theorem after?_cons {rs : List (Files × Request)} (h : s.answer? files r = some (reply, next)) :
    after? ((files, r) :: rs) s = after? rs next := by
  rw [after?, h, Option.bind_some]

/-- The networks in use are the ones that the options ask for. -/
def Current (s : Session) : Prop :=
  ∀ n, s.networks = some n →
    n.identity.get .big = s.options.requested .big ∧
      n.identity.get .small = s.options.requested .small

/-- What a request makes of a session. -/
inductive Step (files : Files) (s : Session) : Request → Session → Prop where
  | pass {r : Request} (hboard : r.board? = none) (hnaming : r.naming? = none) : Step files s r s
  | setUp {r : Request} {p : Position} (hboard : r.board? = some p) (hnaming : r.naming? = none) :
      Step files s r { s with position := p }
  | name {r : Request} {c : NetworkClass} {name : String} (hboard : r.board? = none)
      (hnaming : r.naming? = some (c, name)) :
      Step files s r { s with
        options := s.options.set c name
        networks := if s.options.get c = name then s.networks else none }
  | load {r : Request} (hr : r.Evaluates) : Step files s r (s.obtain files).2.2

theorem withObtained?_next {f : Networks → Option (List String)}
    (h : s.withObtained? files f = some (reply, next)) : next = (s.obtain files).2.2 := by
  rw [withObtained?] at h
  split at h
  · next heq =>
    obtain ⟨_, -, hpair⟩ := Option.map_eq_some_iff.mp h
    rw [heq]
    exact (congrArg Prod.snd hpair).symm
  · next heq =>
    rw [heq]
    exact (congrArg Prod.snd (Option.some.inj h)).symm

theorem step_of_handle {command : Command} (h : s.handle? files command = some (reply, next)) :
    Step files s (.command command) next := by
  cases command with
  | identify | quit | unknown line =>
    cases h
    exact .pass rfl rfl
  | newGame =>
    cases h
    exact .setUp rfl rfl
  | isReady => exact withObtained?_next h ▸ .load (.inl rfl)
  | evaluate => exact withObtained?_next h ▸ .load (.inr (.inl rfl))
  | position words =>
    obtain ⟨result, hresult, hpair⟩ := Option.map_eq_some_iff.mp h
    have hboard : (Request.command (.position words)).board? = result.toOption := by
      rw [Request.board?, hresult, Option.bind_some]
    cases result with
    | ok p =>
      cases hpair
      exact .setUp hboard rfl
    | error e =>
      cases hpair
      exact .pass hboard rfl
  | setOption words =>
    rw [handle?] at h
    cases hx : OptionSetting.ofWords? words with
    | none =>
      rw [hx] at h
      cases h
      exact .pass rfl (by rw [Request.naming?, hx]; rfl)
    | some x =>
      rw [hx] at h
      cases hc : NetworkClass.ofOption? x.name with
      | none =>
        simp only [FileOptions.apply, hc] at h
        cases h
        exact .pass rfl (by simp [Request.naming?, hx, hc])
      | some c =>
        have hnaming : (Request.command (.setOption words)).naming? =
            some (c, FileOptions.trimmed (x.value.getD "")) := by
          simp [Request.naming?, hx, hc]
        simp only [FileOptions.apply_of_option _ hc, decide_eq_true_eq, ite_not] at h
        cases h
        exact .name rfl hnaming

theorem step_of_evaluate {v : Option Int32} (h : s.evaluate? files = some (v, reply, next)) :
    Step files s .value next := by
  obtain ⟨check, -, h⟩ := Option.bind_eq_some_iff.mp h
  split at h
  · cases h
    exact .pass rfl rfl
  · have hnext : next = (s.obtain files).2.2 := by
      split at h
      · next heq =>
        obtain ⟨_, -, h⟩ := Option.bind_eq_some_iff.mp h
        cases h
        rw [heq]
      · next heq =>
        cases h
        rw [heq]
    exact hnext ▸ .load (.inr (.inr rfl))

theorem step_of_answer (h : s.answer? files r = some (reply, next)) : Step files s r next := by
  cases r with
  | command command => exact step_of_handle h
  | value =>
    obtain ⟨⟨v, _, _⟩, hv, hpair⟩ := Option.map_eq_some_iff.mp h
    cases hpair
    exact step_of_evaluate hv

theorem obtain_of_ok {registry : Registry} (hs : s.networks = none)
    (h : s.registry.reload files s.options = (.ok n, registry)) :
    s.obtain files = (usage n, some n, { s with registry := registry, networks := some n }) := by
  simp only [obtain, hs, h]

/-- Obtaining networks leaves the options, the position and networks that are held. New ones are
those asked for. -/
theorem obtain_next (s : Session) (files : Files) :
    let next := (s.obtain files).2.2
    next.options = s.options ∧ next.position = s.position ∧
      (∀ n, s.networks = some n → next.networks = some n) ∧ (s.Current → next.Current) := by
  intro next
  cases hs : s.networks with
  | some n =>
    have hnext : next = s := by
      simp only [next, obtain, hs]
    rw [hnext]
    exact ⟨rfl, rfl, fun m hm => hs.trans hm, id⟩
  | none =>
    rcases hreload : s.registry.reload files s.options with ⟨n | n, registry⟩
    · have hnext : next = { s with registry := registry } := by
        simp only [next, obtain, hs, hreload]
      rw [hnext]
      exact ⟨rfl, rfl, fun _ hm => (by cases hm), id⟩
    · have hnext : next = { s with registry := registry, networks := some n } :=
        congrArg (·.2.2) (obtain_of_ok hs hreload)
      rw [hnext]
      refine ⟨rfl, rfl, fun _ hm => (by cases hm), fun _ m hm => ?_⟩
      cases hm
      exact Registry.identity_of_reload (congrArg Prod.fst hreload)

namespace Step

theorem options_eq (h : Step files s r next) : next.options = r.options s.options := by
  cases h with
  | pass _ hnaming | setUp _ hnaming => exact (Request.options_of_not_naming hnaming).symm
  | name _ hnaming => rw [Request.options, hnaming]
  | load hr =>
    rw [Request.options_of_not_naming hr.sets_nothing.2]
    exact (s.obtain_next files).1

theorem position_eq (h : Step files s r next) : next.position = r.board?.getD s.position := by
  cases h with
  | pass hboard | name hboard => rw [hboard, Option.getD_none]
  | setUp hboard => rw [hboard, Option.getD_some]
  | load hr =>
    rw [hr.sets_nothing.1, Option.getD_none]
    exact (s.obtain_next files).2.1

/-- Other options take the networks away. -/
theorem networks_eq_none (h : Step files s r next) (hnew : next.options ≠ s.options) :
    next.networks = none := by
  cases h with
  | pass | setUp => exact (hnew rfl).elim
  | name _ _ => exact if_neg fun hsame => hnew (FileOptions.set_eq_self_iff.mpr hsame)
  | load _ => exact (hnew (s.obtain_next files).1).elim

theorem networks_kept (h : Step files s r next) (hsame : next.options = s.options)
    (hn : s.networks = some n) : next.networks = some n := by
  cases h with
  | pass | setUp => exact hn
  | name _ _ => exact (if_pos (FileOptions.set_eq_self_iff.mp hsame)).trans hn
  | load _ => exact (s.obtain_next files).2.2.1 n hn

theorem current (h : Step files s r next) (hs : s.Current) : next.Current := by
  cases h with
  | pass | setUp => exact hs
  | @name c name _ _ =>
    -- Networks are left only where the name is the one before.
    intro n hn
    obtain ⟨hsame, hn⟩ := Option.ite_none_right_eq_some.mp hn
    change _ = (s.options.set c name).requested .big ∧ _ = (s.options.set c name).requested .small
    rw [FileOptions.set_eq_self_iff.mpr hsame]
    exact hs n hn
  | load _ => exact (s.obtain_next files).2.2.2 hs

end Step

theorem current_start (directories : List String) : (start directories).Current := by
  intro n hn
  cases hn

theorem current_after {rs : List (Files × Request)} (h : after? rs s = some next)
    (hs : s.Current) : next.Current := by
  induction rs generalizing s with
  | nil => exact Option.some.inj h ▸ hs
  | cons request rs ih =>
    obtain ⟨⟨_, t⟩, ht, hrest⟩ := Option.bind_eq_some_iff.mp h
    exact ih hrest ((step_of_answer ht).current hs)

theorem position_after {rs : List (Files × Request)} (h : after? rs s = some next) :
    next.position = ((rs.map Prod.snd).filterMap Request.board?).getLast?.getD s.position := by
  induction rs generalizing s with
  | nil => exact congrArg position (Option.some.inj h).symm
  | cons request rs ih =>
    obtain ⟨⟨_, t⟩, ht, hrest⟩ := Option.bind_eq_some_iff.mp h
    rw [ih hrest, (step_of_answer ht).position_eq, List.map_cons]
    cases hboard : request.2.board? with
    | none => rw [List.filterMap_cons_none hboard, Option.getD_none]
    | some p =>
      rw [List.filterMap_cons_some hboard, List.getLast?_cons, Option.getD_some, Option.getD_some]

/-- A request that names a file for an option. -/
def Request.setFile (option file : String) : Request :=
  .command (.setOption ["setoption", "name", option, "value", file])

/-- The requests that name the sample networks and load them. -/
def loadSample : List (Files × Request) :=
  [(Files.sample, .setFile "EvalFileBig" "big"), (Files.sample, .setFile "EvalFile" "small"),
    (Files.sample, .command .isReady)]

theorem answer_isReady {registry : Registry} (hs : s.networks = none)
    (h : s.registry.reload files s.options = (.ok n, registry)) :
    s.answer? files (.command .isReady) = some (.say (usage n ++ ["readyok"]),
      { s with registry := registry, networks := some n }) := by
  rw [answer?, handle?, withObtained?, obtain_of_ok hs h]
  rfl

theorem exists_reload_sample : ∃ n registry, (Registry.empty ["a", "b"]).reload Files.sample
    ⟨"big", "small", ""⟩ = (.ok n, registry) := by
  have hbig : FileOptions.requested ⟨"big", "small", ""⟩ .big = "big" := by decide
  have hsmall : FileOptions.requested ⟨"big", "small", ""⟩ .small = "small" := by decide
  have hfound : ∃ n, ((Registry.empty ["a", "b"]).reload Files.sample ⟨"big", "small", ""⟩).1 =
      .ok n := by
    rw [(Registry.reload_eq ..).1]
    change ∃ n, ((Store.afterLoads ["a", "b"] []).load ..).verify _ = .ok n
    rw [Store.exists_verify_load (Files.sample_big (.inl hbig)) (hsmall ▸ Files.sample_small)]
    refine ⟨fun h => ?_, fun h => ?_⟩
    · exact absurd (hbig.symm.trans h.1) (by decide)
    · exact absurd (hsmall.symm.trans h.1) (by decide)
  obtain ⟨n, hn⟩ := hfound
  rcases hreload : (Registry.empty ["a", "b"]).reload Files.sample ⟨"big", "small", ""⟩
    with ⟨result, registry⟩
  rw [hreload] at hn
  exact ⟨n, registry, congrArg (·, registry) hn⟩

theorem exists_after_loadSample : ∃ s n, after? loadSample (start ["a", "b"]) = some s ∧
    s.networks = some n ∧ s.options = ⟨"big", "small", ""⟩ := by
  obtain ⟨n, registry, hreload⟩ := exists_reload_sample
  have hfirst : (start ["a", "b"]).answer? Files.sample (.setFile "EvalFileBig" "big") =
      some (.silent, { start ["a", "b"] with options := ⟨"big", "", ""⟩ }) := rfl
  have hsecond : answer? { start ["a", "b"] with options := ⟨"big", "", ""⟩ } Files.sample
      (.setFile "EvalFile" "small") =
        some (.silent, { start ["a", "b"] with options := ⟨"big", "small", ""⟩ }) := rfl
  have hready : answer? { start ["a", "b"] with options := ⟨"big", "small", ""⟩ } Files.sample
      (.command .isReady) = _ := answer_isReady rfl hreload
  exact ⟨_, n, (after?_cons hfirst).trans ((after?_cons hsecond).trans (after?_cons hready)),
    rfl, rfl⟩

/-- Over any run of a session, networks in use are those that the options ask for, and the position
is the one set up last. Only the setting of an option changes the options, which takes the networks
away. Every other request leaves those in use, and words that tell no position change nothing. -/
theorem requests_keep_networks_current (directories : List String) (rs : List (Files × Request))
    (s : Session) (h : after? rs (start directories) = some s) :
    s.Current ∧ s.position = ((rs.map Prod.snd).filterMap Request.board?).getLast?.getD .initial ∧
    ∀ files r reply next, s.answer? files r = some (reply, next) →
      next.options = r.options s.options ∧
      (next.options ≠ s.options →
        (∃ words, r = .command (.setOption words)) ∧ next.networks = none) ∧
      (next.options = s.options → ∀ n, s.networks = some n → next.networks = some n) ∧
      next.position = r.board?.getD s.position ∧
      ∀ words e, r = .command (.position words) → Position.ofWords? words = some (.error e) →
        next = s := by
  refine ⟨current_after h (current_start directories), position_after h,
    fun files r reply next hnext => ?_⟩
  have hstep := step_of_answer hnext
  refine ⟨hstep.options_eq, fun hnew => ⟨?_, hstep.networks_eq_none hnew⟩,
    fun hsame n => hstep.networks_kept hsame, hstep.position_eq, ?_⟩
  · refine Request.exists_setOption_of_naming fun hnaming => hnew ?_
    rw [hstep.options_eq, Request.options_of_not_naming hnaming]
  · rintro words e rfl hwords
    rw [answer?, handle?, hwords] at hnext
    exact (congrArg Prod.snd (Option.some.inj hnext)).symm

/-- The two networks are named and loaded; they stay while no position is told, and go when another
big network is named. -/
theorem requests_keep_networks_current_of_sample :
    ∃ s n, after? loadSample (start ["a", "b"]) = some s ∧ s.networks = some n ∧
      n.identity.get .big = "big" ∧ n.identity.get .small = "small" ∧
      (∃ reply next, s.answer? Files.sample (.command (.position ["position"])) =
        some (reply, next) ∧ next = s) ∧
      ∃ reply next, s.answer? Files.sample (.setFile "evalfilebig" "other") = some (reply, next) ∧
        next.networks = none ∧ next.position = s.position := by
  obtain ⟨s, n, hrun, hn, hoptions⟩ := exists_after_loadSample
  obtain ⟨hcurrent, -, hanswer⟩ := requests_keep_networks_current _ _ _ hrun
  obtain ⟨hbig, hsmall⟩ := hcurrent n hn
  rw [hoptions] at hbig hsmall
  have hposition : s.answer? Files.sample (.command (.position ["position"])) =
      some (⟨[], ["Error: " ++ SetupError.missingParts.message], none⟩, s) := rfl
  obtain ⟨next, hother⟩ : ∃ next, s.answer? Files.sample (.setFile "evalfilebig" "other") =
      some (.silent, next) := ⟨_, rfl⟩
  obtain ⟨-, -, -, -, hfailed⟩ := hanswer _ _ _ _ hposition
  obtain ⟨hnew, hdropped, -, hboard, -⟩ := hanswer _ _ _ _ hother
  have hchanged : next.options ≠ s.options := by
    rw [hnew, hoptions]
    decide
  exact ⟨s, n, hrun, hn, hbig.trans (by decide), hsmall.trans (by decide),
    ⟨_, _, hposition, hfailed _ _ rfl rfl⟩, _, _, hother, (hdropped hchanged).2, hboard⟩

end Session
end ChessEval
