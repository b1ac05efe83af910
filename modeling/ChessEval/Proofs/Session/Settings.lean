import ChessEval.Proofs.Session.Commands
import ChessEval.Proofs.Text.Cutting

/-! What a command that sets an option makes of the options: the words after its keyword are the
file's name, whatever words they are. -/
namespace ChessEval

variable {o : FileOptions} {c d : NetworkClass} {option name : String} {words : List String}

namespace NetworkClass

theorem isBlank_optionName {x : Char} (h : x ∈ Text.lower c.optionName.toList) :
    Text.isBlank x = false := by
  have hall : (Text.lower c.optionName.toList).all (!Text.isBlank ·) = true := by
    cases c <;> decide
  simpa using List.all_eq_true.mp hall x h

/-- A class is found by the name of its option in any case. -/
theorem ofOption?_of_lower (h : Text.lower option.toList = Text.lower c.optionName.toList) :
    ofOption? option = some c := by
  have htrim : Text.trim option.toList = option.toList := by
    refine Text.trim_of_not_blank fun x hx => ?_
    have hlower : x.toLower ∈ Text.lower option.toList := List.mem_map_of_mem hx
    rw [h] at hlower
    rw [← Text.isBlank_toLower]
    exact isBlank_optionName hlower
  rw [ofOption?, htrim, h]
  cases c <;> decide

theorem ne_of_lower (h : Text.lower option.toList = Text.lower c.optionName.toList)
    (hname : Text.lower name.toList ≠ Text.lower c.optionName.toList) : option ≠ name := by
  rintro rfl
  exact hname h

end NetworkClass

namespace OptionSetting

/-- In the value no word is a keyword. -/
theorem collect_value (words : List String) : collect .value words = ([], words) := by
  induction words with
  | nil => rfl
  | cons w words ih => simp [collect, ih]

theorem ofWords?_of_keywords (hname : option ≠ "name") (hvalue : option ≠ "value")
    (words : List String) : ofWords? ("setoption" :: "name" :: option :: "value" :: words) =
      some ⟨option, if words = [] then none else some (joined words)⟩ := by
  have hcollect : collect .nothing ("name" :: option :: "value" :: words) = ([option], words) := by
    simp [collect, hname, hvalue, collect_value]
  simp [ofWords?, hcollect, joined]

end OptionSetting

namespace FileOptions

theorem get_set_of_ne (h : d ≠ c) : (o.set c name).get d = o.get d := by
  cases c <;> cases d <;> first | rfl | exact (h rfl).elim

theorem trimmed_joined (h : ∀ w ∈ words, Text.IsWord w.toList) :
    trimmed (OptionSetting.joined words) = OptionSetting.joined words := by
  have hwords : ∀ w ∈ words.map String.toList, Text.IsWord w := List.forall_mem_map.mpr h
  rw [trimmed, OptionSetting.joined, String.toList_intercalate]
  change String.ofList (Text.trim (List.intercalate [' '] _)) = _
  rw [Text.trim_intercalate hwords, ← String.toList_inj, String.toList_ofList,
    String.toList_intercalate]
  rfl

theorem joined_ne_empty (hne : words ≠ []) (h : ∀ w ∈ words, Text.IsWord w.toList) :
    OptionSetting.joined words ≠ "" := by
  have hwords : ∀ w ∈ words.map String.toList, Text.IsWord w := List.forall_mem_map.mpr h
  rw [OptionSetting.joined, ne_eq, ← String.toList_inj, String.toList_intercalate]
  exact Text.intercalate_ne_nil (by simpa using hne) hwords

/-- A name without blanks at its ends is requested as it is, and none asks for the default. -/
theorem requested_set (h : trimmed name = name) :
    (o.set c name).requested c = if name = "" then c.defaultFile else name := by
  rw [requested, get_set, h]

theorem requested_set_of_ne (h : d ≠ c) : (o.set c name).requested d = o.requested d := by
  rw [requested, requested, get_set_of_ne h]

theorem apply_joined (h : NetworkClass.ofOption? option = some c)
    (hwords : ∀ w ∈ words, Text.IsWord w.toList) :
    o.apply option (if words = [] then none else some (OptionSetting.joined words)) =
      (o.set c (OptionSetting.joined words),
        decide (o.get c ≠ OptionSetting.joined words)) := by
  have hvalue : (if words = [] then none else some (OptionSetting.joined words)).getD "" =
      OptionSetting.joined words := by
    split
    · next hnil =>
      rw [hnil]
      rfl
    · rfl
  rw [apply_of_option _ h, hvalue, trimmed_joined hwords]

/-- A command that sets the option of a class to some words, whatever words they are, makes them the
file requested for the class, or the default file if there are none. The files of the other classes
stay. Other networks are asked for exactly if the text kept for the class is a new one, so never by
the same command once more. -/
theorem settings_request_named_files (o : FileOptions) (c : NetworkClass) (option : String)
    (words : List String) (hoption : Text.lower option.toList = Text.lower c.optionName.toList)
    (hwords : ∀ w ∈ words, Text.IsWord w.toList) :
    ∃ x, OptionSetting.ofWords? ("setoption" :: "name" :: option :: "value" :: words) = some x ∧
      let next := (o.apply x.name x.value).1
      next.requested c = (if words = [] then c.defaultFile else " ".intercalate words) ∧
      (∀ d, d ≠ c → next.requested d = o.requested d) ∧
      ((o.apply x.name x.value).2 = true ↔ next.get c ≠ o.get c) ∧
      next.apply x.name x.value = (next, false) := by
  have hname : option ≠ "name" := NetworkClass.ne_of_lower hoption (by cases c <;> decide)
  have hvalue : option ≠ "value" := NetworkClass.ne_of_lower hoption (by cases c <;> decide)
  have hclass := NetworkClass.ofOption?_of_lower hoption
  refine ⟨_, OptionSetting.ofWords?_of_keywords hname hvalue words, ?_⟩
  rw [apply_joined hclass hwords]
  refine ⟨?_, fun d => requested_set_of_ne, ?_, ?_⟩
  · rw [requested_set (trimmed_joined hwords)]
    by_cases hnil : words = []
    · rw [if_pos hnil, hnil, if_pos (by rfl)]
    · rw [if_neg hnil, if_neg (joined_ne_empty hnil hwords), OptionSetting.joined]
  · rw [get_set, decide_eq_true_iff, ne_comm]
  · rw [apply_joined hclass hwords, get_set, set_eq_self_iff.mpr (get_set ..)]
    simp

/-- The small network's option in other letters, and a file whose name has the keywords in it. -/
theorem settings_request_named_files_of_keywords :
    let o : FileOptions := ⟨"big", "small", ""⟩
    let words := ["my", "value", "name", "small.nnue"]
    Text.lower "EVALfile".toList = Text.lower NetworkClass.small.optionName.toList ∧
    (∀ w ∈ words, Text.IsWord w.toList) ∧
    ∃ x, OptionSetting.ofWords? ("setoption" :: "name" :: "EVALfile" :: "value" :: words) = some x ∧
      (o.apply x.name x.value).1.requested .small = "my value name small.nnue" ∧
      (o.apply x.name x.value).1.requested .big = "big" ∧
      (o.apply x.name x.value).2 = true := by
  intro o words
  have hoption : Text.lower "EVALfile".toList = Text.lower NetworkClass.small.optionName.toList := by
    decide
  have hwords : ∀ w ∈ words, Text.IsWord w.toList := by
    decide
  obtain ⟨x, hx, hsmall, hothers, hreload, -⟩ :=
    settings_request_named_files o .small "EVALfile" words hoption hwords
  have hbig : o.requested .big = "big" := by decide
  have hstored : o.requested .small = "small" := by decide
  refine ⟨hoption, hwords, x, hx, hsmall, (hothers .big (by decide)).trans hbig,
    hreload.mpr fun hsame => ?_⟩
  rw [requested, hsame, ← requested, hstored] at hsmall
  exact absurd hsmall (by decide)

end FileOptions

end ChessEval
