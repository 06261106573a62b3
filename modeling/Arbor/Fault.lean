import Arbor.Token
/-!
# Faults

A fault says why a program was refused while it was read, or stopped while it ran. Every fault
names an offending text and the offset at which that text starts; its kind, message and help are
read off the cause.
-/
namespace Arbor

inductive Misplacement where
  | noStatement
  | noCall
  | noColonAfter (name : String)
  | noNameAfter (keyword : String)
  | noFunctionName
  | noParameterList
  | noParameter
  | noParameterEnd
  | elseOutsideIf
  | bodyWithoutOwner
  | bodyNotOpen
  | unknownKeyword
  | detachedBody
  deriving DecidableEq, Repr

inductive Fault where
  /-- No lexeme starts with this character here. -/
  | unknownCharacter (c : Char) (position : Nat)
  /-- The text opened by this quote never ends. -/
  | unclosedText (quote : Char) (position : Nat)
  | misplaced (why : Misplacement) (found : Token)
  /-- A call of `name` at the limit of nested calls. -/
  | callsTooDeep (name : String) (position limit : Nat)
  /-- A step at the limit of nested steps. -/
  | nestsTooDeep (text : String) (position limit : Nat)
  deriving DecidableEq, Repr

namespace Fault

inductive Kind where
  | interpreter
  | character
  | grammar
  | stack
  deriving DecidableEq, Repr

def Kind.label : Kind → String
  | .interpreter => "Interpreter Error"
  | .character => "Unexpected character"
  | .grammar => "Invalid syntax"
  | .stack => "Stack overflow"

def kind : Fault → Kind
  | unknownCharacter .. | unclosedText .. => .character
  | misplaced .unknownKeyword _ | misplaced .detachedBody _ => .interpreter
  | misplaced .. => .grammar
  | callsTooDeep .. | nestsTooDeep .. => .stack

def text : Fault → String
  | unknownCharacter c _ | unclosedText c _ => c.toString
  | misplaced _ found => found.text
  | callsTooDeep name .. => name
  | nestsTooDeep text .. => text

def start : Fault → Nat
  | unknownCharacter _ position | unclosedText _ position => position
  | misplaced _ found => found.position
  | callsTooDeep _ position _ | nestsTooDeep _ position _ => position

/-- Where the span of a fault ends. It covers the offending text, and at least one character, but
that of a character or of the interpreter itself is always one long. -/
def stop : Fault → Nat
  | unknownCharacter _ position | unclosedText _ position => position + 1
  | misplaced .unknownKeyword found | misplaced .detachedBody found => found.position + 1
  | misplaced _ found => found.position + max 1 found.text.length
  | callsTooDeep name position _ => position + max 1 name.length
  | nestsTooDeep text position _ => position + max 1 text.length

/-- A character is as long as the text of its fault. -/
theorem stop_eq (f : Fault) :
    f.stop = f.start + if f.kind = .interpreter then 1 else max 1 f.text.length := by
  cases f with
  | misplaced why found => cases why <;> rfl
  | unknownCharacter c position | unclosedText c position =>
    simp [stop, start, kind, text]
  | callsTooDeep | nestsTooDeep => rfl

def message : Fault → String
  | unknownCharacter c _ => "Unexpected character: '" ++ c.toString ++ "'"
  | unclosedText .. => "Unterminated string"
  | callsTooDeep _ _ limit => "call depth exceeded the limit of " ++ toString limit
  | nestsTooDeep _ _ limit => "program nests deeper than the limit of " ++ toString limit
  | misplaced why found =>
    match why with
    | .noStatement => "Unexpected '" ++ found.text ++ "' at start of statement"
    | .noCall => "Unexpected '" ++ found.text ++ "' in call"
    | .noColonAfter name => "Expected ':' after '" ++ name ++ "'"
    | .noNameAfter keyword => "Expected a name after '" ++ keyword ++ "'"
    | .noFunctionName => "Expected function name after 'fn'"
    | .noParameterList => "Expected '(' after function name"
    | .noParameter => "Expected parameter name"
    | .noParameterEnd => "Expected ')' after parameters"
    | .elseOutsideIf => "'else' outside of an 'if' body"
    | .bodyWithoutOwner => "'\x7b' must follow a statement"
    | .bodyNotOpen => "Unmatched '\x7d'"
    | .unknownKeyword => "No handler for keyword '" ++ found.text ++ "'"
    | .detachedBody => "Open body is detached from the tree"

def help : Fault → Option String
  | unknownCharacter .. => none
  | unclosedText quote _ => some ("Close the string with a matching " ++ quote.toString)
  | callsTooDeep .. =>
    some "A function that keeps calling itself needs a return path that stops the recursion."
  | nestsTooDeep .. =>
    some "Split long expressions or deeply nested blocks into smaller steps."
  | misplaced why _ =>
    match why with
    | .noStatement => some "Statements start with a keyword, a name, '\x7b', '\x7d' or ';'."
    | .noColonAfter _ => some "Assign with name: value; or call with name(...)."
    | .elseOutsideIf =>
      some "Write 'else' inside the braces of the if: if c \x7b ...; else ...; \x7d"
    | .bodyWithoutOwner => some "A body belongs to the statement before it, e.g. if c \x7b ... \x7d"
    | _ => none

/-- The one line that reports a fault to the reader of the program's output. -/
def diagnostic (f : Fault) (source : String) : String :=
  "ERROR [" ++ f.kind.label ++ "] At '" ++ f.text ++ "' At " ++ source ++ "<ldrx-run>char:" ++
    toString f.start

end Fault

end Arbor
