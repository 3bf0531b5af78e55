import FrameRecovery.Sorted.Map

namespace FrameRecovery

namespace CommandLine

/-- Why a file cannot be used. -/
inductive FileError where
  | notFound
  | isDirectory
  | notDirectory
  | nameTooLong
  | notText
  | other (message : String)
deriving DecidableEq, Repr

/-- The wording of the trouble with a file. -/
def FileError.message : FileError → String
  | notFound => "No such file or directory (os error 2)"
  | isDirectory => "Is a directory (os error 21)"
  | notDirectory => "Not a directory (os error 20)"
  | nameTooLong => "File name too long (os error 36)"
  | notText => "stream did not contain valid UTF-8"
  | other message => message

/-- A way to read and write files. -/
structure Files (m : Type → Type) where
  read : (path : String) → m (Except FileError String)
  write : (path content : String) → m (Except FileError Unit)

/-- A directory without directories in it. A file holds text, or nothing if its bytes are no
    text. Of the directories around it nothing is known, and what is written there is not
    looked at. -/
structure Directory where
  files : SortedMap String (Option String)
deriving DecidableEq

/-- Where a path leads. -/
inductive Target where
  /-- To a directory: the one it is read in, or one around it -/
  | directory
  /-- To a name in the directory it is read in -/
  | within (name : String)
  /-- To a name in a directory around that -/
  | around (name : String)
deriving DecidableEq, Repr

/-- No path has this many bytes or more. -/
def pathLimit : Nat := 4096

/-- No name has more bytes than this. -/
def nameLimit : Nat := 255

/-- Refuses a name that is too long. -/
def checkName (name : String) : Except FileError Unit :=
  if nameLimit < name.utf8ByteSize then .error .nameTooLong else .ok ()

/-- The steps of a path. Slashes in a row count as one. -/
def stepsOf (path : String) : List String :=
  (path.splitOn "/").filter (· != "")

/-- Whether a path ends with a slash, so that it can only lead to a directory. -/
def endsWithSlash (path : String) : Bool :=
  path.toList.getLast? == some '/'

namespace Directory

/-- Why a path cannot go on behind a name. -/
def dead (d : Directory) (inside : Bool) (name : String) : FileError :=
  if nameLimit < name.utf8ByteSize then .nameTooLong
  else if inside && d.files.contains name then .notDirectory
  else .notFound

/-- Where the steps of a path lead from the directory itself, or from one around it. -/
def follow (d : Directory) (inside : Bool) : List String → Except FileError Target
  | [] => .ok .directory
  | step :: rest =>
    if step = "." then d.follow inside rest
    else if step = ".." then d.follow false rest
    else if rest.isEmpty then .ok (if inside then .within step else .around step)
    else .error (d.dead inside step)

/-- Where a path leads. It starts at the directory, or around it if it starts with a slash. -/
def locate (d : Directory) (path : String) : Except FileError Target :=
  if path.isEmpty then .error .notFound
  else if pathLimit ≤ path.utf8ByteSize then .error .nameTooLong
  else d.follow (path.toList.head? != some '/') (stepsOf path)

/-- The text of the file that a path leads to. -/
def read (d : Directory) (path : String) : Except FileError String := do
  match ← d.locate path with
  | .directory => throw .isDirectory
  | .around name =>
    checkName name
    throw .notFound
  | .within name =>
    checkName name
    match d.files.find? name with
    | none => throw .notFound
    | some content =>
      if endsWithSlash path then throw .notDirectory
      match content with
      | some text => return text
      | none => throw .notText

/-- The directory after a file was written. A slash at the end asks for a directory, whatever
    is there. -/
def write (d : Directory) (path content : String) : Except FileError Directory := do
  match ← d.locate path with
  | .directory => throw .isDirectory
  | .around name =>
    if endsWithSlash path then throw .isDirectory
    checkName name
    return d
  | .within name =>
    if endsWithSlash path then throw .isDirectory
    checkName name
    return ⟨d.files.insert name (some content)⟩

/-- Reading and writing the files of a directory. -/
def access : Files (StateM Directory) where
  read path := return (← get).read path
  write path content := do
    match (← get).write path content with
    | .ok d =>
      set d
      return .ok ()
    | .error e => return .error e

end Directory

end CommandLine

end FrameRecovery
