import Arbor.Fault
import Arbor.Operator
import Arbor.Text.Blank
/-!
# Scanning

A program text is cut from left to right. `front` says what stands at the front of a text: a gap,
which leaves no token, or a lexeme, or a fault. Each lexeme is as long as it can be, so an operator
of two characters wins over its first character.
-/
namespace Arbor.Token

inductive Front where
  /-- A gap of one character and `extra` more. -/
  | gap (extra : Nat)
  /-- A lexeme of one character and `extra` more. The token's text starts `lead` characters in. -/
  | lexeme (kind : Kind) (text : List Char) (lead extra : Nat)
  | unknown
  | unclosed
  deriving DecidableEq, Repr

def isLineEnd (c : Char) : Bool := c == '\n' || c == '\r'

def isNameStart (c : Char) : Bool := c.isAlpha || c == '_'

def isNameChar (c : Char) : Bool := c.isAlphanum || c == '_'

def isQuote (c : Char) : Bool := c == '\x27' || c == '\x22' || c == '\x60'

def punctuation? : Char → Option Kind
  | ';' => some .semicolon
  | ',' => some .comma
  | ':' => some .assign
  | '{' | '}' => some .keyword
  | '(' => some .opening
  | ')' => some .closing
  | _ => none

def operatorAt? (c : Char) (rest : List Char) : Option (List Char) :=
  let named (text : List Char) := (Operator.ofSymbol? (String.ofList text)).isSome
  match rest with
  | d :: _ => if named [c, d] then some [c, d] else if named [c] then some [c] else none
  | [] => if named [c] then some [c] else none

def wordKind (word : List Char) : Kind :=
  if Keyword.isWord (String.ofList word) then .keyword else .name

/-- What continues a number after its first digit: digits, with at most one point among them. -/
def numberTail (rest : List Char) : List Char :=
  let digits := rest.takeWhile Char.isDigit
  match rest.dropWhile Char.isDigit with
  | '.' :: fraction => digits ++ '.' :: fraction.takeWhile Char.isDigit
  | _ => digits

def front (c : Char) (rest : List Char) : Front :=
  if Text.isBlank c then .gap 0
  else if c == '\\' then .gap (rest.takeWhile (!isLineEnd ·)).length
  else match punctuation? c with
  | some kind => .lexeme kind [c] 0 0
  | none =>
  match operatorAt? c rest with
  | some text => .lexeme .operator text 0 (text.length - 1)
  | none =>
    if isNameStart c then
      let tail := rest.takeWhile isNameChar
      .lexeme (wordKind (c :: tail)) (c :: tail) 0 tail.length
    else if c.isDigit then
      let tail := numberTail rest
      .lexeme .number (c :: tail) 0 tail.length
    else if isQuote c then
      if rest.contains c then
        let text := rest.takeWhile (· != c)
        .lexeme .string text 1 (text.length + 1)
      else .unclosed
    else .unknown

/-- The tokens of `cs`, which stands at `position`, after those in `done`, latest first. -/
def scanFrom (position : Nat) (cs : List Char) (done : List Token) : Except Fault (List Token) :=
  match cs with
  | [] => .ok (⟨.eof, "", position⟩ :: done).reverse
  | c :: rest =>
    match front c rest with
    | .gap extra => scanFrom (position + 1 + extra) (rest.drop extra) done
    | .lexeme kind text lead extra =>
      scanFrom (position + 1 + extra) (rest.drop extra)
        (⟨kind, String.ofList text, position + lead⟩ :: done)
    | .unknown => .error (.unknownCharacter c position)
    | .unclosed => .error (.unclosedText c position)
termination_by cs.length
decreasing_by all_goals simp only [List.length_drop, List.length_cons]; omega

def scan (source : String) : Except Fault (List Token) := scanFrom 0 source.toList []

end Arbor.Token
