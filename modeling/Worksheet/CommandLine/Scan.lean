import Worksheet.CommandLine.Option
/-! Reading arguments in order. A value is looked at only when the next argument shows that it is
complete, so an argument that nothing is known of counts before a bad value right in front of it. -/
namespace Worksheet.CommandLine

inductive Pending
  | option (opt : Opt) (value : Option String)
  | file (path : String)
  deriving DecidableEq, Repr

structure Scan where
  given : List (Opt × String)
  file : Option String
  pending : Option Pending
  /-- The file has been begun or is complete. -/
  fileSeen : Bool
  /-- All arguments from now on are taken as they are. -/
  verbatim : Bool
  deriving DecidableEq, Repr

namespace Scan

def start : Scan := ⟨[], none, none, false, false⟩

def value? (s : Scan) (o : Opt) : Option String := (s.given.find? (·.1 = o)).map (·.2)

def give (s : Scan) (o : Opt) (value : String) : Except Problem Scan :=
  if (s.value? o).isSome then .error .argumentConflict
  else
    match o.problem? value with
    | some p => .error p
    | none => .ok { s with given := s.given ++ [(o, value)] }

def resolve (s : Scan) : Except Problem Scan :=
  match s.pending with
  | none => .ok s
  | some (.option _ none) => .error .invalidValue
  | some (.option o (some value)) => ({ s with pending := none } : Scan).give o value
  | some (.file path) =>
    if path = "" then .error .invalidValue else .ok { s with pending := none, file := some path }

def wantsValue (s : Scan) : Option Opt :=
  match s.pending with
  | some (.option o none) => some o
  | _ => none

def begin (s : Scan) (o : Opt) (attached : Option String) : Except Problem Scan := do
  let s ← s.resolve
  match attached with
  | some value => s.give o value
  | none => .ok { s with pending := some (.option o none) }

def positional (s : Scan) (path : String) : Except Problem Scan := do
  if s.fileSeen then .error .unknownArgument
  else
    let s ← s.resolve
    .ok { s with pending := some (.file path), fileSeen := true }

/-- Help or the version is shown once all arguments in front are found to be good. -/
def leave (s : Scan) (p : Problem) : Except Problem Scan := do
  let _ ← s.resolve
  .error p

end Scan

def splitLong (cs : List Char) : String × Option String :=
  let name := cs.takeWhile (· ≠ '=')
  match cs.drop name.length with
  | _ :: value => (String.ofList name, some (String.ofList value))
  | [] => (String.ofList name, none)

/-- What is attached to an option of one letter; an equals sign in front is left off. -/
def attachedShort : List Char → Option String
  | [] => none
  | '=' :: value => some (String.ofList value)
  | value => some (String.ofList value)

/-- The command whose arguments are read: the program itself has no name. -/
structure Command where
  name : Option String
  options : List Opt

namespace Command

def readLong (c : Command) (s : Scan) (cs : List Char) : Except Problem Scan :=
  let (name, value) := splitLong cs
  match c.options.find? (·.long = name) with
  | some o => s.begin o value
  | none =>
    match name, value with
    | "help", none => s.leave .help
    | "version", none => s.leave (.version c.name)
    | "help", some _ => .error .tooManyValues
    | "version", some _ => .error .tooManyValues
    | _, _ => .error .unknownArgument

def readShort (c : Command) (s : Scan) (letter : Char) (rest : List Char) : Except Problem Scan :=
  match c.options.find? (·.short? = some letter) with
  | some o => s.begin o (attachedShort rest)
  | none =>
    match letter with
    | 'h' => s.leave .help
    | 'V' => s.leave (.version c.name)
    | _ => .error .unknownArgument

/-- Reads an argument that is an option or the value of one. Nothing comes back for any other. -/
def readOption? (c : Command) (s : Scan) (arg : String) : Option (Except Problem Scan) :=
  if s.verbatim then none
  else
    match arg.toList with
    | ['-', '-'] => some (.ok { s with verbatim := true })
    | '-' :: '-' :: cs => some (c.readLong s cs)
    | '-' :: letter :: rest => some (c.readShort s letter rest)
    | _ => s.wantsValue.map fun o => .ok { s with pending := some (.option o (some arg)) }

def readAll (c : Command) (s : Scan) : List String → Except Problem Scan
  | [] => s.resolve
  | arg :: more => do
    let s ← (c.readOption? s arg).getD (s.positional arg)
    c.readAll s more

/-- The first option that has no value from the command line and a bad one from the environment
decides. -/
def checkVariables (c : Command) (vars : List (String × String)) (s : Scan) : Except Problem Unit :=
  match c.options.findSome? fun o =>
    if (s.value? o).isSome then none
    else (o.envName?.bind fun v => vars.lookup v).bind o.problem? with
  | some p => .error p
  | none => .ok ()

end Command

end Worksheet.CommandLine
