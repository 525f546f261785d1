import ImplicitCurves.Session

/-!
# The command line

What the program writes for an input that is read from a file or piped into it: the answers of a
session to its lines, and the messages of the lines that fail.
-/

namespace ImplicitCurves

/-- What is known of the input. -/
inductive InputContents where
  | text (cs : List Char)
  /-- The bytes are not valid UTF-8. -/
  | malformed
  /-- There is no such file. -/
  | missing

/-- The contents of an input with the given bytes. -/
def InputContents.ofBytes (bytes : ByteArray) : InputContents :=
  match String.fromUTF8? bytes with
  | some s => text s.toList
  | none => malformed

/-- What the program is started with. -/
structure Invocation where
  /-- The file to read, or none for what is piped in. -/
  file : Option String
  contents : InputContents
  /-- The viewport setting of the environment. -/
  viewport : Option String

/-- What the program writes. -/
structure Transcript where
  output : List Char
  errors : List String

namespace Invocation

/-- The name of the environment variable with the viewport. -/
def viewportVariable : String := "PLOTEX_VIEWPORT"

/-- Splits a text into lines, which end with a line feed and possibly a carriage return in front of
it. -/
def splitLines : List Char → List (List Char)
  | [] => []
  | '\n' :: cs => [] :: splitLines cs
  | '\r' :: '\n' :: cs => [] :: splitLines cs
  | c :: cs =>
    match splitLines cs with
    | [] => [[c]]
    | line :: lines => (c :: line) :: lines

/-- The viewport of the session: the one of the setting if that can be read. -/
def sessionViewport (i : Invocation) : Viewport Float :=
  (i.viewport.bind fun setting => Viewport.read setting.toList).getD .default

/-- The message for an input that cannot be read. -/
def unreadable (i : Invocation) (reason : String) : String :=
  "could not read " ++ i.file.getD "stdin" ++ ": " ++ reason

/-- Runs the program.  Blank lines are skipped. -/
def run (i : Invocation) (schedules : Nat → Schedule := fun _ => .inOrder) : Transcript :=
  match i.contents with
  | .malformed => ⟨[], [i.unreadable "stream did not contain valid UTF-8"]⟩
  | .missing => ⟨[], [i.unreadable "No such file or directory (os error 2)"]⟩
  | .text cs =>
    let lines := (splitLines cs).filter fun line => !(Text.trim line).isEmpty
    let (answers, _) := (Session.start i.sessionViewport).executeAll lines schedules
    { output := answers.flatMap fun answer =>
        match answer with
        | .ok text => text ++ ['\n']
        | .error _ => []
      errors := answers.filterMap fun answer =>
        match answer with
        | .ok _ => none
        | .error error => some ("Error: " ++ error.cause.message) }

end Invocation

end ImplicitCurves
