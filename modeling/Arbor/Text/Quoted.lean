import Arbor.Text.Plain
/-!
# Quoted text

A text is quoted between double quotes. Inside, a quote and a backslash are escaped, four control
characters have an escape of their own, and every other character that is not plain is written as
its code point.
-/
namespace Arbor.Text

def hexDigits (n : Nat) : List Char := Nat.toDigits 16 n

def escaped (c : Char) : List Char :=
  if c = '\x22' then ['\\', '\x22']
  else if c = '\\' then ['\\', '\\']
  else if c = '\n' then ['\\', 'n']
  else if c = '\r' then ['\\', 'r']
  else if c = '\t' then ['\\', 't']
  else if c = '\x00' then ['\\', '0']
  else if isPlain c then [c]
  else ['\\', 'u', '{'] ++ hexDigits c.toNat ++ ['}']

def quoted (cs : List Char) : List Char := '\x22' :: (cs.flatMap escaped ++ ['\x22'])

end Arbor.Text
