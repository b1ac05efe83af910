import ChessEval.File.ClassifierFile
import ChessEval.File.CompactFile
import ChessEval.Session.FileOptions

/-! The networks read from files, and the bundle in use. -/
namespace ChessEval

/-- The contents of the files that can be read, by their paths. -/
abbrev Files := String → Option ByteArray

/-- The path of a name in a directory, where the empty directory is the one the program runs in. An
absolute name is a path of its own. -/
def pathIn (directory name : String) : String :=
  if name.toList.head? = some '/' then name
  else if directory = "" ∨ directory.toList.getLast? = some '/' then directory ++ name
  else directory ++ "/" ++ name

/-- The directory of a path: all before its last separator. -/
def directoryOf (path : String) : String :=
  String.ofList ((path.toList.reverse.dropWhile (· ≠ '/')).drop 1).reverse

/-- A network that is needed and was not loaded. -/
structure NotLoaded where
  network : NetworkClass
  requested : String
  /-- The file that the class was last loaded from. -/
  loaded : String
  deriving DecidableEq

namespace NotLoaded

def message (e : NotLoaded) : String :=
  s!"network file '{e.requested}' for the {e.network.name} network was not loaded " ++
    s!"(using '{e.loaded}')"

/-- What to tell before giving up. -/
def advice (e : NotLoaded) : List String :=
  ["Network evaluation parameters compatible with the engine must be available.",
   s!"The network file {e.requested} was not loaded successfully.",
   s!"The UCI option {e.network.optionName} might need to specify the full path, " ++
     "including the directory name, to the network file.",
   "The default net can be downloaded from: https://tests.stockfishchess.org/api/nn/" ++
     e.network.defaultFile,
   "The engine will be terminated now."]

end NotLoaded

/-- The network of each class loaded last, its file's name, and the directories searched. -/
structure Store where
  directories : List String
  big : Option BigNetwork
  small : Option SmallNetwork
  classifier : Option Classifier
  identity : Identity

namespace Store

def empty (directories : List String) : Store := ⟨directories, none, none, none, .none⟩

/-- The paths tried for a name, in their order. -/
def candidates (s : Store) (name : String) : List String := s.directories.map (pathIn · name)

/-- The store with a class's network read from a file of some name. Nothing if the file does not
hold one. -/
def accept? (s : Store) (c : NetworkClass) (name : String) (file : ByteArray) : Option Store :=
  let identity := s.identity.set c name
  match c with
  | .big => (BigNetwork.read file).toOption.map fun n =>
    { s with big := some n, identity := identity }
  | .small => (SmallNetwork.read file).toOption.map fun n =>
    { s with small := some n, identity := identity }
  | .classifier => (Classifier.read file).toOption.map fun n =>
    { s with classifier := some n, identity := identity }

/-- Tries paths for a class until the name is loaded; a path that fails changes nothing. -/
def tryPaths (files : Files) (c : NetworkClass) (name : String) : List String → Store → Store
  | [], s => s
  | path :: paths, s =>
    if s.identity.get c = name then s
    else tryPaths files c name paths (((files path).bind (s.accept? c name)).getD s)

def loadClass (files : Files) (o : FileOptions) (s : Store) (c : NetworkClass) : Store :=
  tryPaths files c (o.requested c) (s.candidates (o.requested c)) s

/-- Tries to load every class whose requested file is not the one it was loaded from. -/
def load (s : Store) (files : Files) (o : FileOptions) : Store :=
  NetworkClass.all.foldl (loadClass files o) s

def notLoaded (s : Store) (o : FileOptions) (c : NetworkClass) : NotLoaded :=
  ⟨c, o.requested c, s.identity.get c⟩

/-- Whether a class was loaded from the requested file. -/
def isCurrent (s : Store) (o : FileOptions) (c : NetworkClass) : Bool :=
  s.identity.get c == o.requested c

/-- The bundle of the requested networks. A classifier from another file is left out; another big or
small network is an error. -/
def verify (s : Store) (o : FileOptions) : Except NotLoaded Networks :=
  if !s.isCurrent o .big then .error (s.notLoaded o .big)
  else if !s.isCurrent o .small then .error (s.notLoaded o .small)
  else match s.big, s.small with
    | none, _ => .error (s.notLoaded o .big)
    | _, none => .error (s.notLoaded o .small)
    | some big, some small =>
      .ok ⟨big, small, if s.isCurrent o .classifier then s.classifier else none, s.identity⟩

end Store

/-- A store and the bundle that was published last. -/
structure Registry where
  store : Store
  current : Option Networks

namespace Registry

def empty (directories : List String) : Registry := ⟨.empty directories, none⟩

/-- Loads what the options request and publishes it if nothing needed is missing. -/
def reload (r : Registry) (files : Files) (o : FileOptions) :
    Except NotLoaded Networks × Registry :=
  let store := r.store.load files o
  match store.verify o with
  | .ok n => (.ok n, ⟨store, some n⟩)
  | .error e => (.error e, { r with store := store })

/-- Publishes a bundle that is at hand. -/
def install (r : Registry) (n : Networks) : Registry := { r with current := some n }

end Registry

end ChessEval
