/-! Files as a program sees them from its working directory. -/
namespace Worksheet

inductive FileNode
  | file (content : ByteArray)
  | directory

/-- The files and directories below the working directory, by the names on the way to them. -/
structure FileTree where
  nodes : List (List String × FileNode)

inductive Place
  /-- Below the working directory, or the directory itself. -/
  | below (names : List String)
  /-- A directory above the working directory, by the number of steps up. -/
  | above (steps : Nat)
  | root
  deriving DecidableEq, Repr

inductive PathFault
  | missing
  | notDirectory
  | nameTooLong
  | nulByte
  deriving DecidableEq, Repr

namespace FileTree

def empty : FileTree := ⟨[]⟩

/-- A directory is there if it was made, or if something lies below it. -/
def nodeAt? (t : FileTree) (names : List String) : Option FileNode :=
  match t.nodes.find? (·.1 = names) with
  | some (_, node) => some node
  | none =>
    if names.isEmpty || t.nodes.any fun p => names.length < p.1.length && names == p.1.take names.length
    then some .directory else none

def isDirectory (t : FileTree) : Place → Bool
  | .below names =>
    match t.nodeAt? names with
    | some .directory => true
    | _ => false
  | .above _ => true
  | .root => true

def put (t : FileTree) (names : List String) (node : FileNode) : FileTree :=
  ⟨(names, node) :: t.nodes.filter (·.1 ≠ names)⟩

def remove (t : FileTree) (names : List String) : FileTree := ⟨t.nodes.filter (·.1 ≠ names)⟩

end FileTree

/-- The longest name and the longest path, in bytes. -/
def maxName : Nat := 255
def maxPath : Nat := 4095

namespace Place

/-- One step of a path. An empty name, as behind a final slash, stays at a directory like `.`. -/
def step (t : FileTree) (p : Place) (name : String) : Except PathFault Place :=
  if !t.isDirectory p then .error .notDirectory
  else if name = "" || name = "." then .ok p
  else if name = ".." then
    match p with
    | .below [] => .ok (.above 1)
    | .below names => .ok (.below names.dropLast)
    | .above n => .ok (.above (n + 1))
    | .root => .ok .root
  else if maxName < name.utf8ByteSize then .error .nameTooLong
  else
    match p with
    | .below names =>
      let names := names ++ [name]
      if (t.nodeAt? names).isSome then .ok (.below names) else .error .missing
    | _ => .error .missing

end Place

namespace FileTree

def resolve (t : FileTree) (path : String) : Except PathFault Place :=
  if path.any (· = '\x00') then .error .nulByte
  else if path = "" then .error .missing
  else if maxPath < path.utf8ByteSize then .error .nameTooLong
  else
    let names := path.splitOn "/"
    let (start, names) := if path.startsWith "/" then (Place.root, names.drop 1) else (.below [], names)
    names.foldlM (Place.step t) start

end FileTree

end Worksheet
