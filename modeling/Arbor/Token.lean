/-!
# Tokens

A token keeps the text it was read from and the offset, in characters, at which that text starts.
The end of a program is a token of its own.
-/
namespace Arbor

inductive Token.Kind where
  | eof
  | name
  | opening
  | closing
  | comma
  | string
  | number
  | assign
  | keyword
  | operator
  | semicolon
  deriving DecidableEq, Repr, Inhabited

structure Token where
  kind : Token.Kind
  text : String
  position : Nat
  deriving DecidableEq, Repr, Inhabited

inductive Keyword where
  | function
  | giveBack
  | output
  | loop
  | branch
  | otherwise
  | remove
  | input
  | openBody
  | closeBody
  deriving DecidableEq, Repr

namespace Keyword

def words : List Keyword :=
  [function, giveBack, output, loop, branch, otherwise, remove, input]

def text : Keyword → String
  | function => "fn"
  | giveBack => "return"
  | output => "print"
  | loop => "while"
  | branch => "if"
  | otherwise => "else"
  | remove => "rem"
  | input => "ask"
  | openBody => "\x7b"
  | closeBody => "\x7d"

def ofText? (text : String) : Option Keyword :=
  (words ++ [openBody, closeBody]).find? (·.text == text)

def isWord (text : String) : Bool := words.any (·.text == text)

theorem ofText?_text (k : Keyword) : ofText? k.text = some k := by
  cases k <;> decide

theorem text_of_ofText? {text : String} {k : Keyword} (h : ofText? text = some k) :
    k.text = text := by
  simpa using List.find?_some h

end Keyword

end Arbor
