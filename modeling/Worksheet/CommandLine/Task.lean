import Worksheet.CommandLine.Scan
/-! The command line as a task. -/
namespace Worksheet.CommandLine

structure ServeTask where
  file : String
  host : String
  port : Nat
  debounce : Nat
  queue : Nat
  deriving DecidableEq, Repr

structure EvalTask where
  file : String
  format : Format
  timeout : Nat
  deriving DecidableEq, Repr

inductive Task
  | serve (task : ServeTask)
  | eval (task : EvalTask)
  deriving DecidableEq, Repr

structure Arguments where
  task : Task
  log : Option String
  deriving DecidableEq, Repr

def program : Command := ⟨none, [.log]⟩

def serveCommand : Command := ⟨some "serve", [.host, .port, .debounce, .queue, .log]⟩

def evalCommand : Command := ⟨some "eval", [.format, .timeout, .log]⟩

inductive Subcommand
  | serve
  | eval
  | help
  deriving DecidableEq, Repr

def Subcommand.ofName? : String → Option Subcommand
  | "serve" => some .serve
  | "eval" => some .eval
  | "help" => some .help
  | _ => none

/-- Help is given on one command at most. -/
def helpFor : List String → Problem
  | [] => .help
  | [name] => if (Subcommand.ofName? name).isSome then .help else .invalidSubcommand
  | _ => .invalidSubcommand

def valueOf (vars : List (String × String)) (s : Scan) (o : Opt) : Option String :=
  (s.value? o).or (o.envName?.bind fun v => vars.lookup v)

def readCommand (c : Command) (vars : List (String × String)) (args : List String) :
    Except Problem (Scan × String) := do
  let s ← c.readAll .start args
  c.checkVariables vars s
  match s.file with
  | none => .error .missingRequired
  | some file => .ok (s, file)

def readServe (vars : List (String × String)) (args : List String) : Except Problem (Task × Scan) := do
  let (s, file) ← readCommand serveCommand vars args
  let number (o : Opt) (default : Nat) : Nat := ((valueOf vars s o).bind count?).getD default
  return (.serve {
      file := file
      host := (valueOf vars s .host).getD "127.0.0.1"
      port := ((valueOf vars s .port).bind port?).getD 7878
      debounce := number .debounce 100
      queue := number .queue 1024 }, s)

def readEval (vars : List (String × String)) (args : List String) : Except Problem (Task × Scan) := do
  let (s, file) ← readCommand evalCommand vars args
  return (.eval {
      file := file
      format := ((valueOf vars s .format).bind Format.ofName?).getD .text
      timeout := ((valueOf vars s .timeout).bind count?).getD 30000 }, s)

def withoutCommand (vars : List (String × String)) (s : Scan) : Problem :=
  match s.resolve with
  | .error p => p
  | .ok s => if (valueOf vars s .log).isSome then .missingSubcommand else .nothingGiven

/-- Reads the arguments up to a command and the command. The log option may stand before it or
behind; the later of the two counts. -/
def readProgram (vars : List (String × String)) (s : Scan) : List String → Except Problem Arguments
  | [] => .error (withoutCommand vars s)
  | arg :: more => do
    let finish (read : Except Problem (Task × Scan)) : Except Problem Arguments := do
      let (task, inner) ← read
      let outer ← s.resolve
      return ⟨task, (inner.value? .log).or (valueOf vars outer .log)⟩
    let command := if s.verbatim || s.wantsValue.isSome then none else Subcommand.ofName? arg
    match command with
    | some .serve => finish (readServe vars more)
    | some .eval => finish (readEval vars more)
    | some .help => .error (helpFor more)
    | none =>
      match program.readOption? s arg with
      | some next => readProgram vars (← next) more
      | none =>
        .error (if s.verbatim && (Subcommand.ofName? arg).isSome then .unknownArgument
          else .invalidSubcommand)

def read (args : List String) (vars : List (String × String)) : Except Problem Arguments :=
  readProgram vars .start args

end Worksheet.CommandLine
