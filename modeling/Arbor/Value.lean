import Arbor.Number.Reading
import Arbor.Number.Shortest
import Arbor.Number.Word
import Arbor.Text.Blank
import Arbor.Tree
/-!
# Values

Besides numbers and texts there are bodies, which are nodes that can be run, and two marks: one for
a name that is not visible and one for a body that returned nothing. Every value has a reading as a
condition, as a number and as a text.
-/
namespace Arbor

inductive Value where
  | number (x : Float)
  | text (s : String)
  | body (id : NodeId)
  | undefined
  | null
  deriving DecidableEq, Repr, Inhabited

namespace Value

def isNumber : Value → Bool
  | number _ => true
  | _ => false

def truthy : Value → Bool
  | number x => !(x == 0) && !x.isNaN
  | text s => !s.isEmpty
  | body _ => true
  | undefined | null => false

/-- Texts are read after trimming, and a blank text is zero. What is no number is not a number. -/
def toNumber : Value → Float
  | number x => x
  | text s =>
    match Text.trim s.toList with
    | [] => 0
    | cs => (Number.read? cs).getD Number.nan
  | _ => Number.nan

def toWord (v : Value) : Int32 := Number.toWord v.toNumber

def display : Value → String
  | number x => Number.text x
  | text s => s
  | body _ => "[body]"
  | undefined => "Undefined"
  | null => "Null"

def ofBool (b : Bool) : Value := number (if b then 1 else 0)

end Value

end Arbor
