import JumpCode.CommandLine

/-!
# JumpCode — the program

Runs a command in the surroundings of a process.
-/

namespace JumpCode

/-- The cause of a failure, as the system words it. -/
def systemCause (e : IO.Error) : String :=
  let numbered (code : UInt32) (text : String) : String :=
    text ++ " (os error " ++ toString code.toNat ++ ")"
  match e with
  | .noFileOrDirectory _ code text => numbered code text
  | .permissionDenied _ code text => numbered code text
  | .inappropriateType _ code text => numbered code text
  | .invalidArgument _ code text => numbered code text
  | .resourceExhausted _ code text => numbered code text
  | .resourceBusy code text => numbered code text
  | .resourceVanished code text => numbered code text
  | .hardwareFault code text => numbered code text
  | .otherError code text => numbered code text
  | e => toString e

/-- All that a handle holds, or a failure to read it. -/
def readContents (h : IO.FS.Handle) : IO Contents := do
  try
    let data ← h.readBinToEnd
    return .bytes data.toList
  catch _ => return .failing

/-- Writes a text through a handle. -/
def writeText (h : IO.FS.Handle) (text : String) : IO (Except WriteFailure Unit) := do
  try
    h.putStr text
    h.flush
    return .ok ()
  catch e => return .error (.writing (systemCause e))

/-- The surroundings of a process. -/
def processSurroundings : Surroundings IO where
  input := do
    let stream ← IO.getStdin
    let mut data := ByteArray.empty
    try
      repeat
        let piece ← stream.read 65536
        if piece.isEmpty then break
        data := data ++ piece
      return .bytes data.toList
    catch _ => return .failing
  fileInput path := do
    try
      let h ← IO.FS.Handle.mk path .read
      return .ok (← readContents h)
    catch e => return .error (systemCause e)
  output text := do
    try
      let stream ← IO.getStdout
      stream.putStr text
      stream.flush
      return .ok ()
    catch e => return .error (systemCause e)
  fileOutput path text := do
    try
      writeText (← IO.FS.Handle.mk path .write) text
    catch e => return .error (.opening (systemCause e))
  errors text := IO.eprint text

end JumpCode

/-- Runs the command that the arguments ask for. -/
def main (args : List String) : IO UInt32 := do
  let code ← (JumpCode.Command.ofArgs args).run JumpCode.processSurroundings
  return code.number.toUInt32
