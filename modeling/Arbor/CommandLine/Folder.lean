/-!
# Folders

A command line names a file by a path. An entry is what it finds there. A folder is a set of files
by their paths, and finds entries the way a disk does: names lead down, two dots lead up, and only
out of a directory does any name lead on. Of what lies outside the folder nothing is known.
-/
namespace Arbor.CommandLine

inductive Entry where
  | text (source : String)
  /-- Something that has no text, and why. -/
  | textless (reason : String)
  | missing
  deriving DecidableEq, Repr

namespace Entry

def directory : Entry := textless "Is a directory (os error 21)"

def ofBytes (bytes : ByteArray) : Entry :=
  match String.fromUTF8? bytes with
  | some source => text source
  | none => textless "stream did not contain valid UTF-8"

end Entry

structure Folder where
  /-- Each file by the names on the way to it. -/
  files : List (List String × ByteArray)

namespace Folder

inductive Place where
  | file (bytes : ByteArray)
  /-- A directory, by the names on the way to it. -/
  | directory (names : List String)
  | outside

variable (f : Folder)

def child? (names : List String) (name : String) : Option Place :=
  let path := names ++ [name]
  match f.files.lookup path with
  | some bytes => some (.file bytes)
  | none => if f.files.any (path.isPrefixOf ·.1) then some (.directory path) else none

def next? : Place → String → Option Place
  | .file _, _ => none
  | place, "" | place, "." => some place
  | .directory [], ".." | .outside, ".." => some .outside
  | .directory names, ".." => some (.directory names.dropLast)
  | .directory names, name => f.child? names name
  | .outside, _ => none

/-- An absolute path leads through the outside. -/
def entry (path : String) : Entry :=
  let top := if path.toList.head? = some '/' then Place.outside else .directory []
  match if path.isEmpty then none else (path.splitOn "/").foldlM f.next? top with
  | some (.file bytes) => .ofBytes bytes
  | some _ => .directory
  | none => .missing

end Folder

end Arbor.CommandLine
