import Worksheet.Files.Source
/-! Watching a file: its text is delivered when the watch starts and each time the file is touched and
can be read, whether the text is another one or not. A caller may wait for a text that is new to it. -/
namespace Worksheet

structure Watch where
  place : Place
  running : Bool
  /-- The text that was delivered last. -/
  last : String

/-- A change to a file beside the watched one, or to itself. -/
structure FileChange where
  names : List String
  content : Option FileNode

def FileChange.apply (t : FileTree) (c : FileChange) : FileTree :=
  match c.content with
  | some node => t.put c.names node
  | none => t.remove c.names

namespace Watch

def start (t : FileTree) (path : String) : Except Failure Watch :=
  match t.resolve path with
  | .error e => .error (FileTree.PathFault.failure path e)
  | .ok place => (t.readPlace path place).map fun text => ⟨place, true, text⟩

def stop (w : Watch) : Watch := { w with running := false }

/-- Changes to other files do not count, even in the same directory. -/
def touchedBy (w : Watch) (c : FileChange) : Bool := w.place = .below c.names

/-- What is delivered when the file has been touched. -/
def next? (w : Watch) (t : FileTree) : Option String :=
  if w.running then (t.readPlace "" w.place).toOption else none

def deliver (w : Watch) (t : FileTree) : Watch × Option String :=
  match w.next? t with
  | some text => ({ w with last := text }, some text)
  | none => (w, none)

/-- A text is delivered again when the file is touched again. -/
theorem deliver_again (w : Watch) (t : FileTree) :
    ((w.deliver t).1.deliver t).2 = (w.deliver t).2 := by
  cases text : w.next? t with
  | none => simp only [deliver, text]
  | some s =>
    have again : ({ w with last := s } : Watch).next? t = some s := text
    simp only [deliver, text, again]

/-- What a caller takes who has seen the last text already and waits for another one. -/
def unseen? (w : Watch) (delivered : Option String) : Option String := delivered.filter (· ≠ w.last)

/-- Makes changes in turn; each is waited for or not. Changes that are not waited for are delivered
together with the next one that is. -/
def follow (w : Watch) (t : FileTree) (changes : List (FileChange × Bool)) : List (Option String) :=
  go w t false changes
where
  go (w : Watch) (t : FileTree) (touched : Bool) : List (FileChange × Bool) → List (Option String)
    | [] => []
    | (change, wait) :: more =>
      let t := change.apply t
      let touched := touched || w.touchedBy change
      if wait && touched then
        let (w', delivered) := w.deliver t
        w.unseen? delivered :: go w' t false more
      else none :: go w t touched more

end Watch

end Worksheet
