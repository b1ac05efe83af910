import ChessEval.Network.Networks
import ChessEval.Text.Blank

/-! The options that name the files of the networks, and the command that sets them. -/
namespace ChessEval

namespace NetworkClass

def optionName : NetworkClass → String
  | big => "EvalFileBig"
  | small => "EvalFile"
  | classifier => "EvalFileClassifier"

/-- The file that is used where none is named. -/
def defaultFile : NetworkClass → String
  | big => "nn-b1a57edbea57.nnue"
  | small => "HL64-qa101-qb160-S2-T77novT79maraprmay.rearranged.8-bit.nnue"
  | classifier => "aux-classifier.bin"

/-- The class whose option has a name, whatever its case and the blanks around it. -/
def ofOption? (name : String) : Option NetworkClass :=
  let name := Text.lower (Text.trim name.toList)
  all.find? fun c => Text.lower c.optionName.toList == name

end NetworkClass

/-- The names of the files; a blank one stands for the default file. -/
structure FileOptions where
  big : String
  small : String
  classifier : String
  deriving DecidableEq

namespace FileOptions

def default : FileOptions := ⟨"", "", ""⟩

def get (o : FileOptions) : NetworkClass → String
  | .big => o.big
  | .small => o.small
  | .classifier => o.classifier

def set (o : FileOptions) (c : NetworkClass) (name : String) : FileOptions :=
  match c with
  | .big => { o with big := name }
  | .small => { o with small := name }
  | .classifier => { o with classifier := name }

def trimmed (text : String) : String := String.ofList (Text.trim text.toList)

/-- The file that is to be loaded for a class. -/
def requested (o : FileOptions) (c : NetworkClass) : String :=
  let name := trimmed (o.get c)
  if name = "" then c.defaultFile else name

/-- The lines that declare the options. -/
def declarations : List String :=
  NetworkClass.all.map fun c =>
    s!"option name {c.optionName} type string default {c.defaultFile}"

/-- Sets an option, to nothing if there is no value, and tells whether this asks for other files than
before. Other names than the classes' options are passed over. -/
def apply (o : FileOptions) (name : String) (value : Option String) : FileOptions × Bool :=
  match NetworkClass.ofOption? name with
  | none => (o, false)
  | some c =>
    let value := trimmed (value.getD "")
    if o.get c = value then (o, false) else (o.set c value, true)

end FileOptions

/-- An option's name and, where there is one, its value. -/
structure OptionSetting where
  name : String
  value : Option String
  deriving DecidableEq

namespace OptionSetting

/-- What the next word of the command belongs to. -/
inductive Slot where
  | nothing
  | name
  | value
  deriving DecidableEq

/-- The words of the name and those of the value. The words "name" and "value" change the slot, except
where they are words of the value, or "value" comes before any "name". -/
def collect : Slot → List String → List String × List String
  | _, [] => ([], [])
  | slot, w :: ws =>
    if w = "name" ∧ slot ≠ .value then collect .name ws
    else if w = "value" ∧ slot = .name then collect .value ws
    else
      let (name, value) := collect slot ws
      match slot with
      | .nothing => (name, value)
      | .name => (w :: name, value)
      | .value => (name, w :: value)

def joined (words : List String) : String := " ".intercalate words

/-- Reads the words of a command. No setting if it is another command or has no name. -/
def ofWords? : List String → Option OptionSetting
  | "setoption" :: ws =>
    let (name, value) := collect .nothing ws
    if name.isEmpty then none
    else some ⟨joined name, if value.isEmpty then none else some (joined value)⟩
  | _ => none

end OptionSetting

end ChessEval
