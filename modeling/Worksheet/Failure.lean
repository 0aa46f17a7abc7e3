import Worksheet.Key
/-! What can go wrong outside a single declaration, with the text and the exit code for it. -/
namespace Worksheet

inductive Failure
  | fileNotFound (path : String)
  | watch (message : String)
  | config (message : String)
  /-- A parent that a name stands for has no cell. -/
  | unknownParent (key : Key)
  | hubClosed
  | timeout (limit : Nat)
  | io (message : String)
  deriving DecidableEq, Repr

namespace Failure

def message : Failure → String
  | fileNotFound path => "File not found: " ++ path
  | watch m => "Watcher error: " ++ m
  | config m => "Configuration error: " ++ m
  | unknownParent k => "Internal error: no worker registered for parent key " ++ k.text
  | hubClosed => "Aggregator is no longer running"
  | timeout ms => "Evaluation did not settle within " ++ toString ms ++ "ms"
  | io m => "IO error: " ++ m

/-- 1 for a file, 2 for the set-up, 3 for the time limit, 4 for a fault of the program. -/
def exitCode : Failure → Nat
  | fileNotFound _ => 1
  | io _ => 1
  | config _ => 2
  | watch _ => 2
  | timeout _ => 3
  | unknownParent _ => 4
  | hubClosed => 4

end Failure

end Worksheet
