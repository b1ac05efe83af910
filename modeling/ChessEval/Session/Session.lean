import ChessEval.Evaluate.Trace
import ChessEval.Session.Command
import ChessEval.Session.Setup
import ChessEval.Session.Store

/-! A session: commands answered one after the other. -/
namespace ChessEval

structure Session where
  options : FileOptions
  registry : Registry
  /-- The networks in use, none before they are first needed and after another file was named. -/
  networks : Option Networks
  evaluator : Evaluator
  position : Position

/-- Lines for the two outputs, and the status to end with. -/
structure Reply where
  output : List String
  errors : List String
  status : Option UInt32
  deriving DecidableEq

namespace Reply

def silent : Reply := ⟨[], [], none⟩

/-- Lines of output, after which the session goes on. -/
def say (lines : List String) : Reply := ⟨lines, [], none⟩

end Reply

namespace Session

/-- A session that searches its networks in some directories. -/
def start (directories : List String) : Session :=
  ⟨.default, .empty directories, none, .default, .initial⟩

/-- A session with networks at hand. -/
def withNetworks (directories : List String) (n : Networks) : Session :=
  let s := start directories
  { s with registry := s.registry.install n, networks := some n }

/-- The lines that tell which files are in use. -/
def usage (n : Networks) : List String :=
  (NetworkClass.all.filter fun c => c ≠ .classifier ∨ n.classifier.isSome).map fun c =>
    "info string NNUE evaluation using " ++ n.identity.get c

/-- The networks in use, loaded if there are none, with the lines that tell of it. -/
def obtain (s : Session) (files : Files) : List String × Option Networks × Session :=
  match s.networks with
  | some n => ([], some n, s)
  | none =>
    match s.registry.reload files s.options with
    | (.ok n, r) => (usage n, some n, { s with registry := r, networks := some n })
    | (.error e, r) => (e.advice.map ("info string ERROR: " ++ ·), none, { s with registry := r })

/-- Goes on with the networks in use; ends the session with status 1 where they are missing. -/
def withObtained? (s : Session) (files : Files) (f : Networks → Option (List String)) :
    Option (Reply × Session) :=
  match s.obtain files with
  | (lines, some n, s) => (f n).map fun more => (.say (lines ++ more), s)
  | (lines, none, s) => some (⟨lines, [], some 1⟩, s)

def identification : List String :=
  ["id name nnue_eval"] ++ FileOptions.declarations ++ ["uciok"]

/-- Answers a command. No result where the position or its evaluation has none. -/
def handle? (s : Session) (files : Files) : Command → Option (Reply × Session)
  | .identify => some (.say identification, s)
  | .isReady => s.withObtained? files fun _ => some ["readyok"]
  | .newGame => some (.silent, { s with position := .initial })
  | .position words => (Position.ofWords? words).map fun
    | .ok p => (.silent, { s with position := p })
    | .error e => (⟨[], ["Error: " ++ e.message], none⟩, s)
  | .setOption words =>
    match OptionSetting.ofWords? words with
    | none => some (.silent, s)
    | some x =>
      let (options, reload) := s.options.apply x.name x.value
      some (.silent, { s with
        options := options
        networks := if reload then none else s.networks })
  | .evaluate => s.withObtained? files fun n => s.evaluator.trace? n s.position
  | .quit => some (⟨[], [], some 0⟩, s)
  | .unknown _ => some (.silent, s)

/-- The value of the position for the side to move; none in check, and none if a network is missing,
which ends the session. -/
def evaluate? (s : Session) (files : Files) : Option (Option Int32 × Reply × Session) := do
  let check ← s.position.inCheck?
  if check then return (none, .silent, s)
  else match s.obtain files with
    | (lines, some n, s) =>
      let b ← s.evaluator.evaluateFresh? n s.position 0
      return (some b.value, .say lines, s)
    | (lines, none, s) => return (none, ⟨lines, [], some 1⟩, s)

/-- Answers a line; a blank one is passed over. -/
def handleLine? (s : Session) (files : Files) (line : String) : Option (Reply × Session) :=
  match Command.ofLine? line with
  | some c => s.handle? files c
  | none => some (.silent, s)

/-- Answers lines until one ends the session, with status 0 at their end. No result where an answer
has none. -/
def run? (files : Files) : List String → Session → Option Reply
  | [], _ => some ⟨[], [], some 0⟩
  | line :: lines, s => do
    let (first, s) ← s.handleLine? files line
    match first.status with
    | some _ => return first
    | none =>
      let rest ← run? files lines s
      return ⟨first.output ++ rest.output, first.errors ++ rest.errors, rest.status⟩

/-- The paths that answering a command may read. -/
def wanted (s : Session) : Command → List String
  | .isReady | .evaluate =>
    match s.networks with
    | some _ => []
    | none => NetworkClass.all.flatMap fun c => s.registry.store.candidates (s.options.requested c)
  | _ => []

end Session

end ChessEval
