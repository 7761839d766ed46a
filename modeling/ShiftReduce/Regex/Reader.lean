import ShiftReduce.Regex.Basic
import ShiftReduce.Regex.Error
import ShiftReduce.Text.Alphanumeric
import ShiftReduce.Text.Location

/-!
# Reading patterns

`Regex.parse` reads the text of a pattern by recursive descent: alternatives are separated by `|`, a
sequence is a run of atoms with their suffixes, and an atom is a group, a set, a dot, an escape or a
plain character. Every reader takes the characters that are left and returns those that are left
after it. A reader that fails names the fault and the characters left at the place of the fault, so
that the byte offset is worked out once, at the end.

Letters and numbers of all scripts may not follow a backslash unless they name an escape. Which
characters these are depends on the version of the Unicode standard, and so the readers take them as
the argument `alnum`. `Regex.parse` is `Regex.parseWith` for `Text.isAlphanumeric`.

The readers of nested parts take fuel. A pattern of `n` characters needs at most `4 * n + 4` of it,
since at most four readers are entered between one character and the next.
-/

namespace ShiftReduce.Regex

open ShiftReduce.Text

/-- A fault and the characters that were left at its place. -/
structure Stop where
  fault : Fault
  rest : List Char
deriving DecidableEq

/-- What an escape stands for. -/
inductive Escaped where
  | char (c : Char)
  | cls (k : CharClass)
deriving DecidableEq

/-- The escapes of one letter or digit. -/
def namedEscape : Char → Option Escaped
  | 'n' => some (.char '\n')
  | 'r' => some (.char '\r')
  | 't' => some (.char '\t')
  | 'f' => some (.char '\x0c')
  | 'v' => some (.char '\x0b')
  | '0' => some (.char '\x00')
  | 'd' => some (.cls .digit)
  | 'w' => some (.cls .word)
  | 's' => some (.cls .space)
  | 'D' => some (.cls .notDigit)
  | 'W' => some (.cls .notWord)
  | 'S' => some (.cls .notSpace)
  | _ => none

/-- The value of a hexadecimal digit. -/
def hexValue (c : Char) : Option Nat :=
  if '0' ≤ c ∧ c ≤ '9' then some (c.toNat - '0'.toNat)
  else if 'a' ≤ c ∧ c ≤ 'f' then some (c.toNat - 'a'.toNat + 10)
  else if 'A' ≤ c ∧ c ≤ 'F' then some (c.toNat - 'A'.toNat + 10)
  else none

/-- Reads `n` hexadecimal digits, the value of the digits before them being `acc`. -/
def readHex : Nat → Nat → List Char → Option (Nat × List Char)
  | 0, acc, cs => some (acc, cs)
  | _ + 1, _, [] => none
  | n + 1, acc, c :: cs => (hexValue c).bind fun d => readHex n (acc * 16 + d) cs

/-- Reads the `n` digits of a code point. One that is no character is a fault at `start`. -/
def readCodePoint (start : List Char) (n : Nat) (cs : List Char) :
    Except Stop (Escaped × List Char) :=
  match readHex n 0 cs with
  | some (code, rest) =>
    if code.isValidChar then .ok (.char (Char.ofNat code), rest) else .error ⟨.invalidEscape, start⟩
  | none => .error ⟨.invalidEscape, start⟩

-- the letters and numbers of all scripts
variable (alnum : Char → Bool)

/-- Reads an escape, of which the backslash at `start` has been read. Alphanumeric characters that name
no escape are a fault; every other character stands for itself. -/
def readEscape (start : List Char) : List Char → Except Stop (Escaped × List Char)
  | [] => .error ⟨.invalidEscape, start⟩
  | c :: rest =>
    match namedEscape c with
    | some e => .ok (e, rest)
    | none =>
      if c = 'x' then readCodePoint start 2 rest
      else if c = 'u' then readCodePoint start 4 rest
      else if alnum c then .error ⟨.invalidEscape, start⟩
      else .ok (.char c, rest)

/-- Reads one character or escape of a set. -/
def readMember (c : Char) (rest : List Char) : Except Stop (Escaped × List Char) :=
  if c = '\\' then readEscape alnum (c :: rest) rest else .ok (.char c, rest)

/-- Reads the upper end of a range that starts at `start` with the character `lower`. -/
def readUpper (start : List Char) (lower c : Char) (rest : List Char) :
    Except Stop (SetItem × List Char) := do
  let (upper, rest) ← readMember alnum c rest
  match upper with
  | .cls _ => .error ⟨.invalidRange, start⟩
  | .char upper =>
    if upper < lower then .error ⟨.invalidRange, start⟩ else .ok (.range lower upper, rest)

/-- Reads one item of a set. A dash after a character makes a range unless the set or the pattern
ends right after it. -/
def readSetItem (c : Char) (rest : List Char) : Except Stop (SetItem × List Char) := do
  let (lower, after) ← readMember alnum c rest
  match lower with
  | .cls k => .ok (.cls k, after)
  | .char lower =>
    match after with
    | '-' :: d :: more =>
      if d = ']' then .ok (.char lower, after) else readUpper alnum (c :: rest) lower d more
    | _ => .ok (.char lower, after)

/-- Reads the items of the set that opens at `start`, up to and with the closing bracket. A set has
at least one item. -/
def readSetItems (start : List Char) :
    Nat → Bool → List Char → Except Stop (List SetItem × List Char)
  | 0, _, _ => .error ⟨.unclosedSet, start⟩
  | _ + 1, _, [] => .error ⟨.unclosedSet, start⟩
  | fuel + 1, isFirst, c :: rest =>
    if c = ']' then
      if isFirst then .error ⟨.unexpected, c :: rest⟩ else .ok ([], rest)
    else do
      let (item, rest) ← readSetItem alnum c rest
      let (items, rest) ← readSetItems start fuel false rest
      .ok (item :: items, rest)

/-- Reads a set, of which the bracket at `start` has been read. -/
def readSet (start cs : List Char) : Except Stop (Regex × List Char) := do
  let negated := cs.head? == some '^'
  let body := if negated then cs.drop 1 else cs
  let (items, rest) ← readSetItems alnum start (body.length + 1) true body
  .ok (.set negated items, rest)

/-- The greatest number of repetitions that may be asked for. -/
def maxRepeat : Nat := 1000

/-- The greatest number that is told apart from greater ones. -/
def maxCount : Nat := UInt32.size - 1

/-- The value of a run of decimal digits. It stays at `maxCount` when it would become greater. -/
def decimalValue (digits : List Char) : Nat :=
  digits.foldl (fun n c => min maxCount (min maxCount (n * 10) + (c.toNat - '0'.toNat))) 0

/-- Reads a number, if there is one. -/
def readNumber (cs : List Char) : Option Nat × List Char :=
  match cs.takeWhile Char.isDigit with
  | [] => (none, cs)
  | digits => (some (decimalValue digits), cs.dropWhile Char.isDigit)

/-- The bounds of a repetition, `max` absent if it has none, are in order and not too great. -/
def boundsAllowed (min : Nat) : Option Nat → Bool
  | none => min ≤ maxRepeat
  | some max => min ≤ max && max ≤ maxRepeat

/-- Reads the bounds of a repetition after its opening brace: `n`, `n,` or `n,m`, with the closing
brace. -/
def readBounds (cs : List Char) : Option ((Nat × Option Nat) × List Char) :=
  match readNumber cs with
  | (none, _) => none
  | (some min, rest) =>
    let (bounds, rest) : Option (Nat × Option Nat) × List Char :=
      match rest with
      | ',' :: '}' :: _ => (some (min, none), rest.drop 1)
      | ',' :: more =>
        match readNumber more with
        | (none, more) => (none, more)
        | (some max, more) => (some (min, some max), more)
      | rest => (some (min, some min), rest)
    match bounds, rest with
    | some bounds, '}' :: rest =>
      if boundsAllowed bounds.1 bounds.2 then some (bounds, rest) else none
    | _, _ => none

/-- Reads the suffixes of the atom `r`. -/
def readSuffixes : Nat → Regex → List Char → Except Stop (Regex × List Char)
  | 0, r, cs => .ok (r, cs)
  | _ + 1, r, [] => .ok (r, [])
  | fuel + 1, r, c :: rest =>
    if c = '*' then readSuffixes fuel (.many r) rest
    else if c = '+' then readSuffixes fuel (.many1 r) rest
    else if c = '?' then readSuffixes fuel (.optional r) rest
    else if c = '{' then
      match readBounds rest with
      | some ((min, max), rest) => readSuffixes fuel (.repeated r min max) rest
      | none => .error ⟨.invalidRepetition, c :: rest⟩
    else .ok (r, c :: rest)

/-- Skips the mark `?:` that a group may start with. No other mark is known. -/
def skipGroupMark : List Char → Except Stop (List Char)
  | '?' :: ':' :: rest => .ok rest
  | '?' :: rest => .error ⟨.unexpected, rest⟩
  | rest => .ok rest

mutual

/-- Reads alternatives up to the end of the pattern or a closing parenthesis. -/
def readAlternatives : Nat → List Char → Except Stop (List Regex × List Char)
  | 0, cs => .error ⟨.unexpected, cs⟩
  | fuel + 1, cs => do
    let (items, rest) ← readSequence fuel cs
    match rest with
    | '|' :: rest =>
      let (more, rest) ← readAlternatives fuel rest
      .ok (ofSequence items :: more, rest)
    | rest => .ok ([ofSequence items], rest)

/-- Reads a run of atoms with their suffixes. -/
def readSequence : Nat → List Char → Except Stop (List Regex × List Char)
  | 0, cs => .error ⟨.unexpected, cs⟩
  | _ + 1, [] => .ok ([], [])
  | fuel + 1, c :: cs =>
    if c = '|' ∨ c = ')' then .ok ([], c :: cs)
    else do
      let (atom, rest) ← readAtom fuel c cs
      let (item, rest) ← readSuffixes (rest.length + 1) atom rest
      let (items, rest) ← readSequence fuel rest
      .ok (item :: items, rest)

/-- Reads the atom that starts with `c`. -/
def readAtom : Nat → Char → List Char → Except Stop (Regex × List Char)
  | 0, c, rest => .error ⟨.unexpected, c :: rest⟩
  | fuel + 1, c, rest =>
    if c = '(' then do
      let inner ← skipGroupMark rest
      let (alternatives, after) ← readAlternatives fuel inner
      match after with
      | ')' :: after => .ok (ofAlternatives alternatives, after)
      | _ => .error ⟨.unclosedGroup, c :: rest⟩
    else if c = '[' then readSet alnum (c :: rest) rest
    else if c = '.' then .ok (.any, rest)
    else if c = '\\' then do
      let (escaped, after) ← readEscape alnum (c :: rest) rest
      match escaped with
      | .char d => .ok (.char d, after)
      | .cls k => .ok (.cls k, after)
    else if c = '*' ∨ c = '+' ∨ c = '?' ∨ c = '{' then .error ⟨.nothingToRepeat, c :: rest⟩
    else if c = '^' ∨ c = '$' then .error ⟨.unexpected, c :: rest⟩
    else .ok (.char c, rest)

end

/-- Reads a whole pattern from its characters. -/
def readPattern (cs : List Char) : Except Stop Regex := do
  let (alternatives, rest) ← readAlternatives alnum (4 * cs.length + 4) cs
  if rest.isEmpty then .ok (ofAlternatives alternatives) else .error ⟨.unexpected, rest⟩

/-- The expression that a pattern stands for, or the first fault in it, where the letters and numbers
that name no escape are those of `alnum`. -/
def parseWith (pattern : String) : Except Error Regex :=
  match readPattern alnum pattern.toList with
  | .ok r => .ok r
  | .error stop =>
    .error ⟨stop.fault, byteLength pattern.toList - byteLength stop.rest⟩

/-- The expression that a pattern stands for, or the first fault in it. -/
def parse (pattern : String) : Except Error Regex :=
  parseWith isAlphanumeric pattern

end ShiftReduce.Regex
