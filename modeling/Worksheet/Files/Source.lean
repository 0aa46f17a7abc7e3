import Worksheet.Failure
import Worksheet.Files.Tree
/-! Reading the text of a file. -/
namespace Worksheet.FileTree

def PathFault.failure (path : String) : PathFault → Failure
  | .missing => .fileNotFound path
  | .notDirectory => .io "Not a directory (os error 20)"
  | .nameTooLong => .io "File name too long (os error 36)"
  | .nulByte => .io "file name contained an unexpected NUL byte"

def readPlace (t : FileTree) (path : String) (place : Place) : Except Failure String :=
  let directory := Failure.io "Is a directory (os error 21)"
  match place with
  | .below names =>
    match t.nodeAt? names with
    | none => .error (.fileNotFound path)
    | some .directory => .error directory
    | some (.file content) =>
      match String.fromUTF8? content with
      | some text => .ok text
      | none => .error (.io "stream did not contain valid UTF-8")
  | _ => .error directory

def read (t : FileTree) (path : String) : Except Failure String :=
  match t.resolve path with
  | .error e => .error (PathFault.failure path e)
  | .ok place => t.readPlace path place

end Worksheet.FileTree
