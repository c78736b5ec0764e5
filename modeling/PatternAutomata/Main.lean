import PatternAutomata.Batch

namespace PatternAutomata

namespace Machine

/-- The error of a file operation by its number. -/
def ofCode (code : UInt32) (text : String) : FileError :=
  if code = 2 then .notFound
  else if code = 17 then .alreadyExists
  else if code = 20 then .notDirectory
  else if code = 21 then .isDirectory
  else if code = 36 then .nameTooLong
  else .other (text ++ " (os error " ++ toString code ++ ")")

def fileError : IO.Error → FileError
  | .noFileOrDirectory _ code text | .alreadyExists _ code text | .inappropriateType _ code text
  | .invalidArgument _ code text | .permissionDenied _ code text | .resourceExhausted _ code text
  | .noSuchThing _ code text | .interrupted _ code text | .otherError code text | .resourceBusy code text
  | .resourceVanished code text | .unsupportedOperation code text | .hardwareFault code text
  | .unsatisfiedConstraints code text | .illegalOperation code text | .protocolError code text
  | .timeExpired code text => ofCode code text
  | .unexpectedEof => .other "unexpected end of file"
  | .userError text => .other text

def attempt {α : Type} (p : Path) (act : IO α) : IO (Except FileError α) := do
  match FileTree.refusal? p with
  | some e => pure (.error e)
  | none =>
    try
      let a ← act
      pure (.ok a)
    catch e => pure (.error (fileError e))

def workspace : Workspace IO where
  createDir p := attempt p (IO.FS.createDir p.text)
  isDirectory p := do
    if (FileTree.refusal? p).isSome then pure false
    else
      let current ← IO.currentDir
      (current / p.text).isDir
  write p content := attempt p (IO.FS.writeFile p.text content)
  read p := attempt p (IO.FS.readFile p.text)
  isPresent p := do
    if (FileTree.refusal? p).isSome then pure false
    else
      let current ← IO.currentDir
      (current / p.text).pathExists
  print text := do
    let out ← IO.getStdout
    out.putStr text
    out.flush

end Machine

end PatternAutomata

def main (args : List String) : IO UInt32 := do
  let outcome ← PatternAutomata.Batch.run PatternAutomata.Machine.workspace args
  let err ← IO.getStderr
  err.putStr outcome.complaint
  pure (UInt32.ofNat outcome.status)
