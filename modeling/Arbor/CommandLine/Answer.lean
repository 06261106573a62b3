import Arbor.CommandLine.Folder
import Arbor.CommandLine.Manual
import Arbor.CommandLine.Request
import Arbor.Prompt
/-!
# Answers to a command line

A request is answered by what goes to the output, by what is said apart from it, and by an exit
code: 0 when all went well, 1 for a program that cannot be read or that fails, and 2 for a misuse of
the command line. A conversation at the prompt ends well in any case.
-/
namespace Arbor.CommandLine

structure Answer where
  output : String
  /-- What is said apart from the output. -/
  complaint : String
  code : Nat
  deriving DecidableEq, Repr

structure Script where
  /-- What faults are reported under. -/
  name : String
  source : String
  deriving DecidableEq, Repr

def lastName (path : String) : String :=
  String.ofList (path.toList.reverse.takeWhile (· != '/')).reverse

/-- The script in the file at `path`, or what is wrong with that file. -/
def scriptAt (path : String) : Entry → Except String Script
  | .text source => .ok ⟨lastName path, source⟩
  | .textless reason => .error ("Error reading file '" ++ path ++ "': " ++ reason ++ "\n")
  | .missing => .error ("Error: File '" ++ path ++ "' not found\n")

namespace Request

variable (r : Request)

def settings : Settings :=
  let standard : Settings := {}
  { maxDepth := r.maxDepth.getD standard.maxDepth
    maxNesting := r.maxNesting.getD standard.maxNesting
    printNewline := r.switches.contains .newline }

def script (entry : String → Entry) : Except String (Option Script) :=
  match r.code, r.file with
  | some source, _ => .ok (some ⟨"<code>", source⟩)
  | none, some path => (scriptAt path (entry path)).map some
  | none, none => .ok none

end Request

def converse (fuel : Nat) (s : Session) (lines : List Line) : Option Answer :=
  (s.prompt fuel lines).map fun (s, ending) => ⟨s.stream, ending.complaint, 0⟩

def Request.answer (fuel : Nat) (r : Request) (clock : Clock) (entry : String → Entry)
    (lines : List Line) : Option Answer :=
  let s := (Session.start clock r.settings []).offer lines
  match r.script entry with
  | .error complaint => some ⟨"", complaint, 1⟩
  | .ok none => converse fuel s lines
  | .ok (some script) =>
    match s.report fuel script.source script.name with
    | .outOfFuel => none
    | .done _ s =>
      if r.switches.contains .interactive then converse fuel s (s.unread lines)
      else some ⟨s.stream, "", 0⟩
    | .failed _ s =>
      if r.switches.contains .interactive then converse fuel s (s.unread lines)
      else some ⟨s.stream, "", 1⟩

/-- Answers a command line. There is no answer when a run is out of fuel. -/
def answer (fuel : Nat) (arguments : List String) (clock : Clock) (entry : String → Entry)
    (lines : List Line) : Option Answer :=
  match Request.ofArguments arguments with
  | .ok r => r.answer fuel clock entry lines
  | .error .help => some ⟨Manual.help, "", 0⟩
  | .error .version => some ⟨Manual.version, "", 0⟩
  | .error .misuse => some ⟨"", Manual.usage, 2⟩

end Arbor.CommandLine
