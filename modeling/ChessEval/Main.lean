import ChessEval.Session.Session
import ChessEval.Text.Lines

/-! The program: commands from standard input, answers to standard output. -/
namespace ChessEval.Main

/-- Reads up to and including the next line feed. -/
partial def readLine (input : IO.FS.Stream) (line : ByteArray) : IO ByteArray := do
  let b ← input.read 1
  if b.isEmpty then return line
  else if b.toList = [Text.lineFeed] then return line ++ b
  else readLine input (line ++ b)

def readFile? (path : String) : IO (Option ByteArray) := do
  try return some (← IO.FS.readBinFile path)
  catch _ => return none

/-- The contents of those files of a list that can be read. -/
def readFiles (paths : List String) : IO Files := do
  let found ← paths.mapM fun path => return (path, ← readFile? path)
  return fun path => (found.lookup path).join

/-- Answers commands until one ends the session or the input ends. -/
partial def serve (input output errors : IO.FS.Stream) (s : Session) : IO UInt32 := do
  let line ← readLine input .empty
  if line.isEmpty then return 0
  match Text.lineText? line.toList with
  | none => return 0
  | some text =>
    match Command.ofLine? text with
    | none => serve input output errors s
    | some c =>
      let files ← readFiles (s.wanted c)
      match s.handle? files c with
      | none => return 101
      | some (reply, s) =>
        reply.output.forM output.putStrLn
        output.flush
        reply.errors.forM errors.putStrLn
        match reply.status with
        | some status => return status
        | none => serve input output errors s

end ChessEval.Main

/-- Searches the networks in the working directory and in the program's own. -/
def main : IO UInt32 := do
  let home := ChessEval.directoryOf (toString (← IO.appPath))
  ChessEval.Main.serve (← IO.getStdin) (← IO.getStdout) (← IO.getStderr)
    (ChessEval.Session.start ["", home])
