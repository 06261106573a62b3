/-!
# Lines of input

Input comes as bytes. A line ends after its line feed, or where the bytes end. Each line is decoded
on its own, so that one with bytes that are no text leaves its neighbours readable.
-/
namespace Arbor

inductive Line where
  | text (s : String)
  /-- A line whose bytes are no text. -/
  | unreadable
  deriving DecidableEq, Repr

namespace Line

def asked : Line → String
  | text s => s
  | unreadable => ""

def isEnd (c : Char) : Bool := c == '\n' || c == '\r'

/-- The text before the line feeds and carriage returns that end it. -/
def withoutEnd (s : String) : String :=
  String.ofList (s.toList.reverse.dropWhile isEnd).reverse

def cut : List UInt8 → List (List UInt8)
  | [] => []
  | byte :: bytes =>
    if byte = 10 then [byte] :: cut bytes
    else match cut bytes with
      | [] => [[byte]]
      | line :: lines => (byte :: line) :: lines

def ofBytes (bytes : List UInt8) : Line :=
  match String.fromUTF8? bytes.toByteArray with
  | some s => text (withoutEnd s)
  | none => unreadable

def all (input : ByteArray) : List Line := (cut input.toList).map ofBytes

end Line

end Arbor
