import Arbor.Evaluate
import Arbor.Tree.Growth
/-!
# Sessions

A session runs one source text after another on one tree and one memory, so that what an earlier
text bound stays bound. A text that cannot be read leaves the session as it was.
-/
namespace Arbor

def version : String := "LDRX (MIT) v1.0.0"

/-- What the names that every session starts with say about its start: a date, and the
milliseconds since the first of January 1970. -/
structure Clock where
  date : String
  time : Float

structure Session where
  tree : Tree
  settings : Settings
  state : State

namespace Session

def start (clock : Clock) (settings : Settings) (input : List String) : Session where
  tree := .planted
  settings := settings
  state :=
    { memory := ((Memory.empty.seed "LDRX" (.text version)).seed "DATE" (.text clock.date)).seed
        "TIME" (.number clock.time)
      output := #[]
      input := input
      depth := 0
      nesting := 0 }

def program (s : Session) : Program := ⟨s.tree, s.settings⟩

def perform (s : Session) (run : Program → Run α) : Outcome Session α :=
  match run s.program s.state with
  | .done a state => .done a { s with state }
  | .failed fault state => .failed fault { s with state }
  | .outOfFuel => .outOfFuel

/-- Adds `source` to the end of the program. The answer is the position of its first statement
among the children of the root. -/
def load (s : Session) (source : String) : Outcome Session Nat :=
  match Token.scan source with
  | .error fault => .failed fault s
  | .ok tokens =>
    match s.tree.grow tokens with
    | .ok tree => .done (s.tree.children Tree.root).size { s with tree }
    | .error stunted => .failed stunted.fault { s with tree := stunted.tree.truncate s.tree.size }

def runSource (fuel : Nat) (s : Session) (source : String) : Outcome Session Unit :=
  match s.load source with
  | .done first s =>
    match s.perform fun p => execute p fuel Tree.root first with
    | .done _ s => .done () s
    | .failed fault s => .failed fault s
    | .outOfFuel => .outOfFuel
  | .failed fault s => .failed fault s
  | .outOfFuel => .outOfFuel

def emit (s : Session) (e : Emission) : Session :=
  { s with state := { s.state with output := s.state.output.push e } }

def report (fuel : Nat) (s : Session) (source name : String) : Outcome Session Unit :=
  match s.runSource fuel source with
  | .failed fault s => .failed fault (s.emit (.diagnostic (fault.diagnostic name)))
  | other => other

end Session

def Emission.captured : Emission → String
  | .printed text | .notice text => text
  | .lineBreak => "\n"
  | .diagnostic line => line

/-- What an emission adds to a stream of lines, where a diagnostic has one of its own. -/
def Emission.streamed : Emission → String
  | .diagnostic line => line ++ "\n"
  | other => other.captured

def Session.stream (s : Session) : String :=
  s.state.output.foldl (fun text e => text ++ e.streamed) ""

end Arbor
