import PatternAutomata.FileTree

namespace PatternAutomata

/-- What a run needs of its surroundings. The same run works on a file tree held as a value and on the files of a
machine. -/
structure Workspace (m : Type → Type) where
  /-- Makes one directory. -/
  createDir : Path → m (Except FileError Unit)
  isDirectory : Path → m Bool
  write : Path → String → m (Except FileError Unit)
  read : Path → m (Except FileError String)
  isPresent : Path → m Bool
  print : String → m Unit

namespace Workspace

variable {m : Type → Type} [Monad m]

/-- An error does not count where there is a directory in the end. -/
def settle (w : Workspace m) (p : Path) (e : FileError) : m (Except FileError Unit) := do
  if ← w.isDirectory p then pure (.ok ()) else pure (.error e)

/-- Makes a directory whose ancestors are given, the nearest first; if its place is missing, it makes
them before it. What has been made stays, also if a later step fails. -/
def createFrom (w : Workspace m) (p : Path) : List Path → m (Except FileError Unit)
  | [] => do
    match ← w.createDir p with
    | .ok () => pure (.ok ())
    | .error e => w.settle p e
  | q :: above => do
    match ← w.createDir p with
    | .ok () => pure (.ok ())
    | .error .notFound =>
      match ← (if q.chars.isEmpty then pure (.ok ()) else w.createFrom q above) with
      | .error e => pure (.error e)
      | .ok () =>
        match ← w.createDir p with
        | .ok () => pure (.ok ())
        | .error e => w.settle p e
    | .error e => w.settle p e

def createDirs (w : Workspace m) (p : Path) : m (Except FileError Unit) :=
  if p.chars.isEmpty then pure (.ok ()) else w.createFrom p p.ancestors

end Workspace

structure Session where
  tree : FileTree
  printed : String
deriving DecidableEq

namespace Session

def workspace : Workspace (StateM Session) where
  createDir p := do
    let s ← get
    match s.tree.createDir p with
    | .error e => pure (.error e)
    | .ok tree =>
      set { s with tree }
      pure (.ok ())
  isDirectory p := do
    let s ← get
    pure (s.tree.isDirectory p)
  write p content := do
    let s ← get
    match s.tree.write p content with
    | .error e => pure (.error e)
    | .ok tree =>
      set { s with tree }
      pure (.ok ())
  read p := do
    let s ← get
    pure (s.tree.read p)
  isPresent p := do
    let s ← get
    pure (s.tree.isPresent p)
  print text := modify fun s => { s with printed := s.printed ++ text }

end Session

end PatternAutomata
