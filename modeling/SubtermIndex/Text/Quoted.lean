/-
# `SubtermIndex.Text.Quoted` — characters and texts in quotes, as messages show them

Inside the quotes stand the characters themselves, but for the quote in use, the backslash and
whatever is hidden: those are written with a backslash.  The messages of errors quote texts in
this way, so that a message can be read whatever is in the text.
-/
import SubtermIndex.Text.Hidden

namespace SubtermIndex.Text

/-- The digits of a number in base 16, lower case, without leading zeros. -/
def hexNumber (n : Nat) : String := String.ofList (Nat.toDigits 16 n)

def escape (quote c : Char) : String :=
  if c = '\x00' then "\\0"
  else if c = '\t' then "\\t"
  else if c = '\r' then "\\r"
  else if c = '\n' then "\\n"
  else if c = '\\' || c = quote then "\\" ++ c.toString
  else if isHidden c then "\\u\x7b" ++ hexNumber c.toNat ++ "\x7d"
  else c.toString

/-- A character in single quotes. -/
def quoteChar (c : Char) : String := "'" ++ escape '\'' c ++ "'"

/-- A text in double quotes. -/
def quote (s : String) : String := "\"" ++ String.join (s.toList.map (escape '"')) ++ "\""

end SubtermIndex.Text
