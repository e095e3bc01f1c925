/-
# `SubtermIndex.Settings.Writing` — settings as JSON

All four members are written, in the order of `Member` and without any blanks.  The key of a
digest is written as the text that it was given as.
-/
import SubtermIndex.Settings.Reading

namespace SubtermIndex.Settings

open Json

def writeRecord (members : List (String × String)) : String :=
  "\x7b" ++ String.intercalate "," (members.map fun m => writeText m.1 ++ ":" ++ m.2) ++ "\x7d"

def writeChoice : DigestChoice → String
  | .plain => writeRecord [(algorithmMember, writeText Algorithm.plain.name)]
  | .keyed key =>
      writeRecord [(algorithmMember, writeText Algorithm.keyed.name), (keyMember, writeText key)]

/-- All four members, in order. -/
def write (c : Settings) : String :=
  writeRecord
    [(Member.childrenField.name, writeText c.childrenField),
     (Member.hash.name, writeChoice c.digest),
     (Member.maxDepth.name, toString c.maxDepth.toNat),
     (Member.splitDepth.name, toString c.splitDepth.toNat)]

end SubtermIndex.Settings
