import Arbor.Token
/-!
# Writing tokens

Tokens are written with one space between them. A string token is put between quotes that its text
does not hold, so that scanning what was written gives the tokens back.
-/
namespace Arbor.Token

/-- A quote that `text` does not hold, or a double quote when it holds all three. -/
def freeQuote (text : List Char) : Char :=
  (['\x22', '\x27', '\x60'].find? (!text.contains ·)).getD '\x22'

def written (t : Token) : List Char :=
  match t.kind with
  | .string => freeQuote t.text.toList :: (t.text.toList ++ [freeQuote t.text.toList])
  | _ => t.text.toList

/-- The text of `tokens`. The end of the program has no text of its own. -/
def render (tokens : List Token) : String :=
  String.ofList ([' '].intercalate ((tokens.filter (·.kind != .eof)).map written))

end Arbor.Token
