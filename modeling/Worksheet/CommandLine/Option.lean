import Worksheet.Text.Decimal
/-! The options of the command line, and the values they take. -/
namespace Worksheet.CommandLine

inductive Problem
  | missingRequired
  | unknownArgument
  | invalidSubcommand
  | invalidValue
  | valueValidation
  | argumentConflict
  | tooManyValues
  | missingSubcommand
  | nothingGiven
  | help
  /-- The version was asked of a command, or of the program. -/
  | version (command : Option String)
  deriving DecidableEq, Repr

/-- Help and version that were asked for are no error. -/
def Problem.exitCode : Problem → Nat
  | help => 0
  | version _ => 0
  | _ => 2

inductive Opt
  | host
  | port
  | debounce
  | queue
  | format
  | timeout
  | log
  deriving DecidableEq, Repr

namespace Opt

def long : Opt → String
  | host => "host"
  | port => "port"
  | debounce => "debounce-ms"
  | queue => "observer-queue"
  | format => "format"
  | timeout => "timeout-ms"
  | log => "log"

def short? : Opt → Option Char
  | port => some 'p'
  | format => some 'f'
  | _ => none

def envName? : Opt → Option String
  | host => some "LIVECELL_HOST"
  | port => some "LIVECELL_PORT"
  | debounce => some "LIVECELL_DEBOUNCE_MS"
  | queue => some "LIVECELL_OBSERVER_QUEUE"
  | format => none
  | timeout => some "LIVECELL_TIMEOUT_MS"
  | log => some "LIVECELL_LOG"

end Opt

def count? (text : String) : Option Nat := Text.below? UInt64.size text.toList

/-- A port may be written with a minus sign too, if it is zero. -/
def port? (text : String) : Option Nat :=
  match text.toList with
  | '-' :: digits => (Text.decimal? digits).filter (· = 0)
  | cs => Text.below? UInt16.size cs

inductive Format
  | text
  | json
  deriving DecidableEq, Repr

def Format.ofName? : String → Option Format
  | "text" => some .text
  | "json" => some .json
  | _ => none

def Opt.problem? (o : Opt) (value : String) : Option Problem :=
  match o with
  | host => none
  | log => none
  | format => if (Format.ofName? value).isSome then none else some .invalidValue
  | port => if (port? value).isSome then none else some .valueValidation
  | _ => if (count? value).isSome then none else some .valueValidation

end Worksheet.CommandLine
