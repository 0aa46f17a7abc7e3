import Worksheet.CommandLine.Task
import Worksheet.Files.Watch
import Worksheet.LogFilter
import Worksheet.OneShot
import Worksheet.Report.Listing
import Worksheet.Report.Wire
/-! The program: a command line in, texts and an exit code out. -/
namespace Worksheet

open CommandLine (Arguments EvalTask Problem ServeTask)

namespace Report

def print (format : CommandLine.Format) (r : Report) : String :=
  match format with
  | .text => r.listing
  | .json => r.toTree.text .pretty ++ "\n"

end Report

namespace Program

/-- Where a run ends: what goes to the standard output, and the failure if there was one. -/
structure Exit where
  code : Nat
  output : String
  failure : Option Failure
  deriving DecidableEq, Repr

def version : String := "0.3.1"

def usage : String :=
  "Usage: livecell [--log <LOG>] serve <FILE> [--host <HOST>] [--port <PORT>]\n" ++
  "                [--debounce-ms <MS>] [--observer-queue <N>]\n" ++
  "       livecell [--log <LOG>] eval <FILE> [--format <text|json>] [--timeout-ms <MS>]\n"

/-- What is shown for a command line that gives no task. Messages about it are not for the output. -/
def Exit.ofProblem (p : Problem) : Exit where
  code := p.exitCode
  failure := none
  output :=
    match p with
    | .help => usage
    | .version none => "livecell " ++ version ++ "\n"
    | .version (some command) => "livecell-" ++ command ++ " " ++ version ++ "\n"
    | _ => ""

def Exit.ofResult : Except Failure String → Exit
  | .ok output => ⟨0, output, none⟩
  | .error f => ⟨f.exitCode, "", some f⟩

/-- The log filter is looked at before anything is done. -/
def checkLog (log : Option String) : Except Failure Unit :=
  match LogFilter.check (log.getD "livecell=info") with
  | .ok () => .ok ()
  | .error f => .error (.config ("invalid log filter: " ++ f.message))

def arguments (args : List String) (vars : List (String × String)) : Except Exit Arguments :=
  match CommandLine.read args vars with
  | .error p => .error (.ofProblem p)
  | .ok a =>
    match checkLog a.log with
    | .error f => .error (.ofResult (.error f))
    | .ok () => .ok a

def evaluate (task : EvalTask) (source : Except Failure String) : Except Failure String := do
  return (← OneShot.evaluate (← source) task.timeout).print task.format

/-- Runs a task on files. Serving is only started here: its output is empty. -/
def runTask (files : FileTree) : CommandLine.Task → Except Failure String
  | .eval task => evaluate task (files.read task.file)
  | .serve task => (Watch.start files task.file).map fun _ => ""

def run (args : List String) (vars : List (String × String)) (files : FileTree) : Exit :=
  match arguments args vars with
  | .error exit => exit
  | .ok a => .ofResult (runTask files a.task)

end Program

end Worksheet
