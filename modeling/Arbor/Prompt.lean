import Arbor.Line
import Arbor.Session
import Arbor.Text.Blank
/-!
# The prompt

At the prompt a reader types programs line by line into one session. A line that is only an
expression is printed. A fault is reported and does not end the conversation: that is done by the
words `exit` and `quit`, by the end of the input, or by a line that cannot be read. Programs that
ask for input take it from the lines that follow.
-/
namespace Arbor

namespace Prompt

def sourceName : String := "<repl>"

def banner : String := version ++ "\nType 'exit' or press Ctrl+D to quit\n\n"

/-- Whether `line` has tokens, and only such as occur in expressions. -/
def isExpression (line : String) : Bool :=
  match Token.scan line with
  | .error _ => false
  | .ok tokens =>
    1 < tokens.length &&
      tokens.all fun t => t.kind != .keyword && t.kind != .assign && t.kind != .semicolon

def sourceOf (line : String) : String :=
  if isExpression line then "print " ++ line ++ ";" else line

inductive Command where
  | nothing
  | leave
  | run (source : String)
  deriving DecidableEq, Repr

def command (line : String) : Command :=
  match String.ofList (Text.trim line.toList) with
  | "" => .nothing
  | "exit" | "quit" => .leave
  | line => .run (sourceOf line)

inductive Ending where
  | endOfInput
  | leave
  | unreadable
  deriving DecidableEq, Repr

def Ending.complaint : Ending → String
  | .unreadable => "Error reading input: stream did not contain valid UTF-8\n"
  | _ => ""

end Prompt

open Prompt

namespace Session

def obey (fuel : Nat) (s : Session) (source : String) : Option Session :=
  match s.report fuel source sourceName with
  | .done _ s | .failed _ s => some s
  | .outOfFuel => none

def offer (s : Session) (lines : List Line) : Session :=
  { s with state := { s.state with input := lines.map Line.asked } }

def unread (s : Session) (lines : List Line) : List Line :=
  lines.drop (lines.length - s.state.input.length)

/-- The conversation over the given lines. There is no answer when a run is out of fuel. -/
def converse (fuel : Nat) (s : Session) : List Line → Option (Session × Ending)
  | [] => some ((s.emit (.notice "> ")).emit (.notice "\n"), .endOfInput)
  | .unreadable :: _ => some (s.emit (.notice "> "), .unreadable)
  | .text line :: rest =>
    let s := s.emit (.notice "> ")
    match command line with
    | .nothing => converse fuel s rest
    | .leave => some (s.emit (.notice "Goodbye!\n"), .leave)
    | .run source =>
      match (s.offer rest).obey fuel source with
      | some s => converse fuel s (s.unread rest)
      | none => none
termination_by lines => lines.length
decreasing_by all_goals simp [unread]; try omega

/-- A conversation from its start. At the prompt each printed text has a line of its own. -/
def prompt (fuel : Nat) (s : Session) (lines : List Line) : Option (Session × Ending) :=
  let s := { s with settings := { s.settings with printNewline := true } }
  (s.emit (.notice banner)).converse fuel lines

end Session

end Arbor
