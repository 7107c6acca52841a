import ShardStore.Store.Files
/-!
The files agents read and write: a scratch directory and nothing else.

A path names a place in the scratch directory when its first part is `<tmp>`; every other path
names nothing. Directories are not stored on their own: a directory exists when some file lies
below it, and the scratch directory always exists. The directory's real name is not fixed, so
messages show every path inside it as `<file>`.

Reading and writing fail as the operating system does, with its own texts: a missing path, a
path through a file, a directory where a file is wanted, a directory that cannot be mapped.
-/

namespace ShardStore

/-- The scratch directory: each file by its path parts, with its bytes. -/
structure Disk where
  files : List (List String × Bytes)
deriving Inhabited

/-- What a path leads to. -/
inductive Disk.Item where
  | file (bytes : Bytes)
  /-- A directory and its children by ascending name, each marked whether it is a file. -/
  | dir (children : List (String × Bool))
  | missing
  /-- A file stands where the path needs a directory. -/
  | underFile

namespace Disk

/-- An empty scratch directory. -/
def empty : Disk := ⟨[]⟩

/-- The first part of every path in the scratch directory. -/
def rootMark : String := "<tmp>"

/-- How messages show a path in the scratch directory. -/
def shownPath : String := "<file>"

/-- The parts of a path below the scratch directory; empty and `.` parts are dropped. -/
def resolve? (path : String) : Option (List String) :=
  match path.splitOn "/" with
  | first :: rest =>
    if first == rootMark then some (rest.filter fun p => p != "" && p != ".") else none
  | [] => none

/-- A path as messages show it. -/
def display (path : String) : String := if (resolve? path).isSome then shownPath else path

/-- A name below a directory path. -/
def join (dir name : String) : String := if dir.endsWith "/" then dir ++ name else dir ++ "/" ++ name

/-- `No such file or directory`. -/
def notFound : Fault := .io "No such file or directory (os error 2)"

/-- `Not a directory`. -/
def notADirectory : Fault := .io "Not a directory (os error 20)"

/-- `Is a directory`. -/
def isADirectory : Fault := .io "Is a directory (os error 21)"

/-- A directory cannot be mapped into memory. -/
def noDevice : Fault := .io "No such device (os error 19)"

/-- Whether `p` is a proper prefix of `q`. -/
def properPrefix (p q : List String) : Bool := p.length < q.length && p.isPrefixOf q

/-- Insert a child into a name-ascending list, once. -/
def addChild (c : String × Bool) : List (String × Bool) → List (String × Bool)
  | [] => [c]
  | d :: ds => if c.1 < d.1 then c :: d :: ds else if c.1 = d.1 then d :: ds else d :: addChild c ds

/-- What a list of path parts leads to. -/
def itemAt (d : Disk) (p : List String) : Item :=
  if d.files.any (properPrefix ·.1 p) then .underFile
  else
    match d.files.find? (·.1 == p) with
    | some (_, bs) => .file bs
    | none =>
      let below := d.files.filter (properPrefix p ·.1)
      if p.isEmpty || !below.isEmpty then
        .dir (below.foldl (fun cs (q, _) =>
          match q.drop p.length with
          | name :: more => addChild (name, more.isEmpty) cs
          | [] => cs) [])
      else .missing

/-- What a path leads to. -/
def item (d : Disk) (path : String) : Item :=
  match resolve? path with
  | some p => d.itemAt p
  | none => .missing

/-- Read an export file. An empty file is refused before decoding. -/
def readExport (d : Disk) (path : String) : Outcome (List Entry) :=
  match d.item path with
  | .file bs =>
    if bs.isEmpty then .error (.invalidDbFile s!"{display path}: empty export file")
    else match Files.deserialize bs with
      | .ok es => .ok es
      | .error e => .error (.decode e)
  | .dir _ => .error noDevice
  | .missing => .error notFound
  | .underFile => .error notADirectory

/-- Read a text file of entries. -/
def readText (d : Disk) (path : String) : Outcome (List Entry) :=
  match d.item path with
  | .file bs => Files.parseText (display path) bs
  | .dir _ => .error isADirectory
  | .missing => .error notFound
  | .underFile => .error notADirectory

/-- The files directly in a directory, as paths in ascending name order; subdirectories are
skipped. -/
def listFiles (d : Disk) (dir : String) : Outcome (List String) :=
  match d.item dir with
  | .dir cs => .ok ((cs.filter (·.2)).map fun (name, _) => join dir name)
  | .file _ | .underFile => .error notADirectory
  | .missing => .error notFound

/-- Create or replace a file; its directory must exist. -/
def write (d : Disk) (path : String) (bs : Bytes) : Outcome Disk :=
  match resolve? path with
  | none => .error notFound
  | some p =>
    match d.itemAt p.dropLast, d.itemAt p with
    | .dir _, .dir _ => .error isADirectory
    | .dir _, _ => .ok ⟨(d.files.filter (·.1 != p)) ++ [(p, bs)]⟩
    | .missing, _ => .error notFound
    | _, _ => .error notADirectory

end Disk

end ShardStore
