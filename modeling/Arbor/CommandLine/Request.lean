import Arbor.Number.Reading
/-!
# Requests

A request is what the arguments of a command line ask for. Arguments are read one at a time, and
reading stops at the first one that is out of place, or at a question about the program itself.
Whether two things that were asked for exclude each other is decided after the last argument.
-/
namespace Arbor.CommandLine

inductive Switch where
  /-- Go on at the prompt. -/
  | interactive
  /-- End a line after each printed text. -/
  | newline
  /-- Explain faults at length, apart from the output. -/
  | explain
  /-- Tell what the program does, apart from the output. -/
  | trace
  deriving DecidableEq, Repr

inductive Parameter where
  | code
  | maxDepth
  | maxNesting
  deriving DecidableEq, Repr

inductive Opt where
  | switch (s : Switch)
  | parameter (p : Parameter)
  | help
  | version
  deriving DecidableEq, Repr

def Opt.ofName? : String → Option Opt
  | "interactive" => some (.switch .interactive)
  | "newline" => some (.switch .newline)
  | "explain" => some (.switch .explain)
  | "trace" => some (.switch .trace)
  | "code" => some (.parameter .code)
  | "max-depth" => some (.parameter .maxDepth)
  | "max-nesting" => some (.parameter .maxNesting)
  | "help" => some .help
  | "version" => some .version
  | _ => none

def Opt.ofLetter? : Char → Option Opt
  | 'i' => some (.switch .interactive)
  | 'n' => some (.switch .newline)
  | 'c' => some (.parameter .code)
  | 'h' => some .help
  | 'V' => some .version
  | _ => none

structure Request where
  file : Option String := none
  code : Option String := none
  maxDepth : Option Nat := none
  maxNesting : Option Nat := none
  switches : List Switch := []
  deriving DecidableEq, Repr

inductive Stop where
  | misuse
  | help
  | version
  deriving DecidableEq, Repr

def count? (text : String) : Option Nat :=
  let digits := match text.toList with
    | '+' :: digits => digits
    | digits => digits
  if !digits.isEmpty && digits.all Char.isDigit && Number.digitsValue digits < UInt64.size then
    some (Number.digitsValue digits)
  else none

namespace Request

variable (r : Request)

/-- Nothing is asked for twice. -/
def turnOn (s : Switch) : Except Stop Request :=
  if s ∈ r.switches then .error .misuse else .ok { r with switches := s :: r.switches }

def give (p : Parameter) (text : String) : Except Stop Request :=
  match p, r.code, r.maxDepth, r.maxNesting, count? text with
  | .code, none, _, _, _ => .ok { r with code := some text }
  | .maxDepth, _, none, _, some n => .ok { r with maxDepth := some n }
  | .maxNesting, _, _, none, some n => .ok { r with maxNesting := some n }
  | _, _, _, _, _ => .error .misuse

def nameFile (path : String) : Except Stop Request :=
  match r.file with
  | none => .ok { r with file := some path }
  | some _ => .error .misuse

end Request

inductive Argument where
  /-- A name after two dashes, with what follows an equals sign in it. -/
  | name (name : String) (value : Option String)
  /-- Letters after one dash. -/
  | letters (letters : List Char)
  /-- Two dashes alone. -/
  | dashes
  | plain (text : String)
  deriving DecidableEq, Repr

def Argument.ofString (text : String) : Argument :=
  match text.toList with
  | ['-', '-'] => .dashes
  | '-' :: '-' :: cs =>
    let value := match cs.dropWhile (· != '=') with
      | _ :: value => some (String.ofList value)
      | [] => none
    .name (String.ofList (cs.takeWhile (· != '='))) value
  | '-' :: c :: cs => .letters (c :: cs)
  | _ => .plain text

structure Progress where
  request : Request := {}
  /-- What the next argument is the value of. -/
  awaiting : Option Parameter := none
  /-- Whether all further arguments name files. -/
  filesOnly : Bool := false
  deriving DecidableEq, Repr

namespace Progress

variable (p : Progress)

def turnOn (s : Switch) : Except Stop Progress := do
  return { p with request := ← p.request.turnOn s }

def give (q : Parameter) (text : String) : Except Stop Progress := do
  return { p with request := ← p.request.give q text, awaiting := none }

def nameFile (path : String) : Except Stop Progress := do
  return { p with request := ← p.request.nameFile path }

def takeName (name : String) (value : Option String) : Except Stop Progress :=
  match Opt.ofName? name, value with
  | some (.parameter q), some text => p.give q text
  | some (.parameter q), none => .ok { p with awaiting := some q }
  | some (.switch s), none => p.turnOn s
  | some .help, none => .error .help
  | some .version, none => .error .version
  | _, _ => .error .misuse

/-- Takes options by their letters. What follows the letter of a parameter is its value, after an
equals sign or without one. -/
def takeLetters (p : Progress) : List Char → Except Stop Progress
  | [] => .ok p
  | c :: rest =>
    match Opt.ofLetter? c, rest with
    | some (.parameter q), [] => .ok { p with awaiting := some q }
    | some (.parameter q), '=' :: value => p.give q (String.ofList value)
    | some (.parameter q), value => p.give q (String.ofList value)
    | some (.switch s), rest => do takeLetters (← p.turnOn s) rest
    | some .help, _ => .error .help
    | some .version, _ => .error .version
    | none, _ => .error .misuse

/-- Takes an argument. Only a plain one can be the value that a parameter waits for. -/
def take (argument : String) : Except Stop Progress :=
  if p.filesOnly then p.nameFile argument
  else match p.awaiting, Argument.ofString argument with
    | some q, .plain text => p.give q text
    | some _, _ => .error .misuse
    | none, .plain text => p.nameFile text
    | none, .name name value => p.takeName name value
    | none, .letters letters => p.takeLetters letters
    | none, .dashes => .ok { p with filesOnly := true }

def finish : Except Stop Request :=
  if p.awaiting.isSome || (p.request.code.isSome && p.request.file.isSome) then .error .misuse
  else .ok p.request

end Progress

def Request.ofArguments (arguments : List String) : Except Stop Request := do
  (← arguments.foldlM Progress.take {}).finish

end Arbor.CommandLine
