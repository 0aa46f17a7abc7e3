import Worksheet.Program
/-! The program on real files. -/
open Worksheet

def readFile (path : String) : IO (Except Failure String) := do
  try
    match String.fromUTF8? (← IO.FS.readBinFile path) with
    | some text => return .ok text
    | none => return .error (.io "stream did not contain valid UTF-8")
  catch e =>
    match e with
    | .noFileOrDirectory .. => return .error (.fileNotFound path)
    | .inappropriateType _ code details =>
      return .error (.io (details ++ " (os error " ++ toString code ++ ")"))
    | e => return .error (.io (toString e))

def environment : IO (List (String × String)) :=
  [CommandLine.Opt.host, .port, .debounce, .queue, .timeout, .log].filterMapM fun o => do
    match o.envName? with
    | none => return none
    | some v => return (← IO.getEnv v).map (v, ·)

def finish (e : Program.Exit) : IO UInt32 := do
  IO.print e.output
  match e.failure with
  | some f => IO.eprintln ("Error: " ++ f.message)
  | none => return e.code.toUInt32
  return e.code.toUInt32

/-- Follows a file and writes each report about it as an event. -/
partial def follow (task : CommandLine.ServeTask) (live : Live) (last : String) : IO Unit := do
  let (reports, _) := live.hub.pending 0
  for r in Report.inKeyOrder reports do
    IO.print r.frame
  let live := { live with hub := live.hub.drain 0 }
  IO.sleep (max task.debounce 1).toUInt32
  match ← readFile task.file with
  | .error _ => follow task live last
  | .ok text =>
    if text = last then follow task live last
    else follow task ((live.edit text).1.settle (.calc ∅)) text

def serve (task : CommandLine.ServeTask) : IO UInt32 := do
  match ← readFile task.file with
  | .error f => finish (.ofResult (.error f))
  | .ok text =>
    let live := Live.start task.queue
    let live := { live with hub := live.hub.subscribe }
    follow task ((live.edit text).1.settle (.calc ∅)) text
    return 0

def evaluate (task : CommandLine.EvalTask) : IO UInt32 := do
  let source ← readFile task.file
  match source with
  | .ok text => IO.sleep (OneShot.duration text task.timeout).toUInt32
  | .error _ => pure ()
  finish (.ofResult (Program.evaluate task source))

def main (args : List String) : IO UInt32 := do
  match Program.arguments args (← environment) with
  | .error e => finish e
  | .ok a =>
    match a.task with
    | .eval task => evaluate task
    | .serve task => serve task
