import ShiftReduce.Text.Printable

/-!
# Quoted characters

Messages show a single character between single quotes. Tab, carriage return, line feed and NUL
have short forms, the quote and the backslash are written with a backslash before them, and every
character that is not printable is written by its code point.
-/

namespace ShiftReduce.Text

/-- The lower-case hexadecimal digits of a number, without leading zeros. -/
def hexDigits (n : Nat) : String :=
  String.ofList (Nat.toDigits 16 n)

/-- What stands between the quotes for the character `c`. -/
def quotedBody (c : Char) : String :=
  if c = '\x00' then "\\0"
  else if c = '\t' then "\\t"
  else if c = '\r' then "\\r"
  else if c = '\n' then "\\n"
  else if c = '\'' then "\\'"
  else if c = '\\' then "\\\\"
  else if isPrintable c then c.toString
  else "\\u\x7b" ++ hexDigits c.toNat ++ "\x7d"

/-- The character `c` between single quotes. -/
def quoted (c : Char) : String :=
  "'" ++ quotedBody c ++ "'"

end ShiftReduce.Text
