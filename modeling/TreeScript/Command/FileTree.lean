/-!
# File trees

A tree of directories and files, and how a path is followed in it.  A path is cut at its slashes, and each
part is a step: to the same place for an empty part or a single dot, to the directory above for two dots,
and else to the entry with that name.  Only a directory can be left by a step, so that a slash behind the
name of a file is refused.

- `FileTree`: directories with named entries, and files.
- `Place.walk`: several steps one after the other, of which the first fault counts.
- `Place.read`: the bytes of the file that a path leads to, or why there are none.
-/

namespace TreeScript

/-- A file, or a directory with its entries by name. -/
inductive FileTree where
  | file (bytes : List UInt8)
  | directory (entries : List (String × FileTree))

/-- Why a path leads to no file. -/
inductive PathFault where
  /-- There is no entry with the name of one of its parts. -/
  | absent
  /-- One of its parts leads on from a file. -/
  | notDirectory
  /-- It leads to a directory. -/
  | isDirectory
  /-- It is longer than a path may be, or one of its parts longer than a name. -/
  | tooLong
deriving Repr, DecidableEq

namespace PathFault

/-- The number that the system gives to the fault. -/
def code : PathFault → Nat
  | absent => 2
  | notDirectory => 20
  | isDirectory => 21
  | tooLong => 36

/-- The fault with a number. -/
def ofCode? (n : Nat) : Option PathFault :=
  [absent, notDirectory, isDirectory, tooLong].find? (·.code = n)

theorem ofCode?_code (fault : PathFault) : ofCode? fault.code = some fault := by
  cases fault <;> decide

def description : PathFault → String
  | absent => "No such file or directory"
  | notDirectory => "Not a directory"
  | isDirectory => "Is a directory"
  | tooLong => "File name too long"

def message (fault : PathFault) : String :=
  let description := fault.description
  let code := fault.code
  s!"{description} (os error {code})"

end PathFault

namespace FileTree

def empty : FileTree := directory []

instance : Inhabited FileTree := ⟨empty⟩

/-- Puts a file at the end of a list of names.  The directories on the way to it are added. -/
def put (bytes : List UInt8) : List String → FileTree → FileTree
  | [], _ => file bytes
  | name :: names, directory entries =>
    directory ((name, put bytes names ((entries.lookup name).getD empty)) ::
      entries.filter (·.1 ≠ name))
  | name :: names, file _ => directory [(name, put bytes names empty)]

end FileTree

/-- A place in a file tree: what is there, and the directories above it, the nearest one first. -/
structure Place where
  here : FileTree
  above : List FileTree

namespace Place

/-- The most bytes that a name may have. -/
def nameLimit : Nat := 255

/-- The most bytes that a path may have. -/
def pathLimit : Nat := 4095

/-- The directory above a place; the outermost one is above itself. -/
def parent (p : Place) : Place :=
  match p.above with
  | [] => p
  | directory :: rest => ⟨directory, rest⟩

/-- The outermost directory. -/
def root (p : Place) : Place := ⟨p.above.getLastD p.here, []⟩

/-- Where one part of a path leads to. -/
def step (p : Place) (part : String) : Except PathFault Place :=
  match p.here with
  | .file _ => .error .notDirectory
  | .directory entries =>
    if part = "" ∨ part = "." then .ok p
    else if part = ".." then .ok p.parent
    else if nameLimit < part.utf8ByteSize then .error .tooLong
    else
      match entries.lookup part with
      | some tree => .ok ⟨tree, p.here :: p.above⟩
      | none => .error .absent

/-- Where the parts of a path lead to. -/
def walk (p : Place) (parts : List String) : Except PathFault Place := parts.foldlM step p

/-- The file that a path leads to.  A path with a slash in front starts at the outermost directory. -/
def read (p : Place) (path : String) : Except PathFault (List UInt8) :=
  if pathLimit < path.utf8ByteSize then .error .tooLong
  else do
    let start := if path.startsWith "/" then p.root else p
    match (← start.walk (path.splitOn "/")).here with
    | .file bytes => return bytes
    | .directory _ => throw .isDirectory

/-- A path can be followed up to any of its parts, and on from there. -/
theorem walk_append (p : Place) (parts more : List String) :
    p.walk (parts ++ more) = p.walk parts >>= (·.walk more) := by
  simp [walk, List.foldlM_append]

/-- Nothing leads on from a file. -/
theorem walk_file (bytes : List UInt8) (above : List FileTree) (part : String) (parts : List String) :
    walk ⟨.file bytes, above⟩ (part :: parts) = .error .notDirectory := by
  rfl

end Place

end TreeScript
