import ConfigOverlay.Json.Fault
import ConfigOverlay.Number.Digits
import ConfigOverlay.Tree.Basic

/-!
# Reading JSON

Each reader takes the characters that remain and answers with what it read and the characters
after it, or with the first fault. Values nest through an allowance: reading a container spends one
unit, so the recursion follows the allowance, and the loops over items and fields take the reader
of one value as an argument.

A text may nest 127 containers. A repeated key keeps its first position and takes its last value.
-/

namespace ConfigOverlay.Json

/-- The blanks of JSON. -/
def isBlank (c : Char) : Bool := c = ' ' || c = '\t' || c = '\n' || c = '\r'

/-- Drop leading blanks. -/
def skipBlanks : List Char → List Char := List.dropWhile isBlank

/-- The value of a decimal digit. -/
def digitValue (c : Char) : Nat := c.toNat - '0'.toNat

/-! ## Words -/

/-- The rest of a word whose first letter was read. -/
def readWord : List Char → List Char → Except Fault (List Char)
  | [], rest => .ok rest
  | _ :: _, [] => .error ⟨.endInValue, 0⟩
  | w :: word, c :: rest =>
    if c = w then readWord word rest else .error (.on .expectedWord (c :: rest))

/-! ## Numbers

The digits of a number are collected into a significand that stays below `2 ^ 64`. Integer digits
that no longer fit count as zeros, fraction digits that no longer fit are dropped. A number without
fraction, exponent or dropped digits is an integer; every other number is scaled by a power of ten
in floating-point arithmetic, with one rounding for the significand, one for the power and one for
each product or quotient. -/

/-- The integer digits from a significand on: the significand, the number of digits that did not
fit, and the rest. -/
def readInteger : Nat → List Char → Nat × Nat × List Char
  | s, [] => (s, 0, [])
  | s, c :: rest =>
    if c.isDigit then
      let next := 10 * s + digitValue c
      if next < 2 ^ 64 then readInteger next rest
      else
        let digits := (c :: rest).takeWhile Char.isDigit
        (s, digits.length, (c :: rest).drop digits.length)
    else (s, 0, c :: rest)

/-- The fraction digits from a significand on: the significand, the number of digits that fitted,
and the rest. -/
def readFraction : Nat → Nat → List Char → Nat × Nat × List Char
  | s, n, [] => (s, n, [])
  | s, n, c :: rest =>
    if c.isDigit then
      let next := 10 * s + digitValue c
      if next < 2 ^ 64 then readFraction next (n + 1) rest
      else (s, n, (c :: rest).dropWhile Char.isDigit)
    else (s, n, c :: rest)

/-- The digits of an exponent from its value so far on. An exponent outside the 32-bit words makes
the number zero, when it is negative or the significand is zero, and is a fault otherwise; `none`
stands for that zero. -/
def readExponentDigits (vanishes : Bool) : Nat → List Char →
    Except Fault (Option Nat × List Char)
  | e, [] => .ok (some e, [])
  | e, c :: rest =>
    if c.isDigit then
      let next := 10 * e + digitValue c
      if next < 2 ^ 31 then readExponentDigits vanishes next rest
      else if vanishes then .ok (none, rest.dropWhile Char.isDigit)
      else .error (.before .numberOutOfRange rest)
    else .ok (some e, c :: rest)

/-- Divide by `10 ^ 308` until the exponent is at least `-308` or the number is zero. -/
def scaleUp : Nat → Binary64 → Int → Option (Binary64 × Int)
  | 0, f, e => some (f, e)
  | fuel + 1, f, e =>
    if -308 ≤ e ∨ f.isZero then some (f, e)
    else do
      let step ← Binary64.powTen? 308
      let f ← f.div? step
      scaleUp fuel f (e + 308)

/-- `significand * 10 ^ e`, by one multiplication or by divisions. -/
def scale? (significand : Nat) (e : Int) : Option Binary64 := do
  let f ← Binary64.ofNat? significand
  if 308 < e then if f.isZero then some f else none
  else
    let (f, e) ← scaleUp ((-e).toNat / 308 + 1) f e
    if 0 ≤ e then f.mul? (← Binary64.powTen? e.toNat)
    else if -308 ≤ e then f.div? (← Binary64.powTen? (-e).toNat)
    else some f

/-- A floating-point number with a sign. -/
def signed (negative : Bool) (f : Binary64) : Number :=
  .float (if negative then f.neg else f)

/-- The scaled number, with the characters after it. -/
def finishFloat (negative : Bool) (significand : Nat) (e : Int) (rest : List Char) :
    Except Fault (Number × List Char) :=
  match scale? significand e with
  | some f => .ok (signed negative f, rest)
  | none => .error (.before .numberOutOfRange rest)

/-- The exponent after its letter, and the number it completes. -/
def readExponent (negative : Bool) (significand : Nat) (e : Int) (cs : List Char) :
    Except Fault (Number × List Char) := do
  let (negativeExponent, digits) := match cs with
    | '+' :: rest => (false, rest)
    | '-' :: rest => (true, rest)
    | _ => (false, cs)
  match digits with
  | [] => throw ⟨.endInValue, 0⟩
  | c :: rest =>
    if c.isDigit then
      let vanishes := negativeExponent || significand == 0
      match ← readExponentDigits vanishes (digitValue c) rest with
      | (none, rest) => return (signed negative .zero, rest)
      | (some n, rest) =>
        finishFloat negative significand (if negativeExponent then e - n else e + n) rest
    else throw (.on .invalidNumber (c :: rest))

/-- What may follow the fraction digits: an exponent or the end of the number. -/
def readAfterFraction (negative : Bool) (significand : Nat) (e : Int) (cs : List Char) :
    Except Fault (Number × List Char) :=
  match cs with
  | c :: rest =>
    if c = 'e' ∨ c = 'E' then readExponent negative significand e rest
    else finishFloat negative significand e cs
  | [] => finishFloat negative significand e cs

/-- What may follow the integer digits of a number: a fraction, an exponent or its end. -/
def readAfterInteger (negative : Bool) (significand dropped : Nat) (cs : List Char) :
    Except Fault (Number × List Char) :=
  let plain := fun (_ : Unit) =>
    match dropped, negative with
    | 0, false =>
      match Number.ofInt? significand with
      | some n => .ok (n, cs)
      | none => finishFloat false significand 0 cs
    | 0, true =>
      if significand = 0 then .ok (signed true .zero, cs)
      else match Number.ofInt? (-significand) with
        | some n => .ok (n, cs)
        | none => finishFloat true significand 0 cs
    | _, _ => finishFloat negative significand dropped cs
  match cs with
  | '.' :: rest =>
    match rest with
    | [] => .error (.on .endInValue rest)
    | c :: _ =>
      if c.isDigit then
        let (s, n, after) := readFraction significand 0 rest
        readAfterFraction negative s (dropped - n) after
      else .error (.on .invalidNumber rest)
  | c :: rest =>
    if c = 'e' ∨ c = 'E' then readExponent negative significand dropped rest
    else plain ()
  | [] => plain ()

/-- A number, after its minus sign if it has one. A leading zero stands alone. -/
def readNumber (negative : Bool) (cs : List Char) : Except Fault (Number × List Char) :=
  match cs with
  | [] => .error ⟨.endInValue, 0⟩
  | '0' :: rest =>
    match rest with
    | c :: _ =>
      if c.isDigit then .error (.on .invalidNumber rest) else readAfterInteger negative 0 0 rest
    | [] => readAfterInteger negative 0 0 rest
  | c :: _ =>
    if c.isDigit then
      let (s, dropped, rest) := readInteger 0 cs
      readAfterInteger negative s dropped rest
    else .error (.on .invalidNumber cs)

/-! ## Strings -/

/-- The number that four hexadecimal digits write. Four bytes are taken in any case. -/
def readHex4 (cs : List Char) : Except Fault (Nat × List Char) :=
  if byteCount (cs.take 4) < 4 then .error ⟨.endInString, 0⟩
  else
    let fault : Fault := ⟨.invalidEscape, byteCount cs - 4⟩
    match cs with
    | a :: b :: c :: d :: rest =>
      match natural? 16 [a, b, c, d] with
      | some n => .ok (n, rest)
      | none => .error fault
    | _ => .error fault

/-- The second half of a surrogate pair, after its first half. -/
def readLowSurrogate (high : Nat) (cs : List Char) : Except Fault (Char × List Char) :=
  match cs with
  | [] => .error ⟨.endInString, 0⟩
  | '\\' :: [] => .error ⟨.endInString, 0⟩
  | '\\' :: 'u' :: rest => do
    let (low, rest) ← readHex4 rest
    if 0xDC00 ≤ low ∧ low ≤ 0xDFFF then
      return (Char.ofNat (0x10000 + (high - 0xD800) * 0x400 + (low - 0xDC00)), rest)
    else throw (.before .loneSurrogate rest)
  | '\\' :: rest => .error (.on .unexpectedEndOfHexEscape rest)
  | _ => .error (.on .unexpectedEndOfHexEscape cs)

/-- The character that an escape writes, after its backslash. -/
def readEscape (cs : List Char) : Except Fault (Char × List Char) :=
  match cs with
  | [] => .error ⟨.endInString, 0⟩
  | '"' :: rest => .ok ('"', rest)
  | '\\' :: rest => .ok ('\\', rest)
  | '/' :: rest => .ok ('/', rest)
  | 'b' :: rest => .ok ('\x08', rest)
  | 'f' :: rest => .ok ('\x0c', rest)
  | 'n' :: rest => .ok ('\n', rest)
  | 'r' :: rest => .ok ('\r', rest)
  | 't' :: rest => .ok ('\t', rest)
  | 'u' :: rest => do
    let (n, rest) ← readHex4 rest
    if 0xDC00 ≤ n ∧ n ≤ 0xDFFF then throw (.before .loneSurrogate rest)
    else if 0xD800 ≤ n ∧ n ≤ 0xDBFF then readLowSurrogate n rest
    else return (Char.ofNat n, rest)
  | _ => .error (.on .invalidEscape cs)

/-- The characters of a string after its opening quote, and what follows its closing quote. Every
step takes at least one character, so the number of characters is fuel enough. -/
def readChars : Nat → List Char → Except Fault (List Char × List Char)
  | 0, _ => .error ⟨.endInString, 0⟩
  | _ + 1, [] => .error ⟨.endInString, 0⟩
  | fuel + 1, c :: rest =>
    if c = '"' then .ok ([], rest)
    else if c = '\\' then do
      let (e, rest) ← readEscape rest
      let (s, rest) ← readChars fuel rest
      return (e :: s, rest)
    else if c.toNat < 0x20 then .error (.on .controlCharacter (c :: rest))
    else do
      let (s, rest) ← readChars fuel rest
      return (c :: s, rest)

/-- A string after its opening quote. -/
def readString (cs : List Char) : Except Fault (String × List Char) := do
  let (s, rest) ← readChars (cs.length + 1) cs
  return (String.ofList s, rest)

/-! ## Containers -/

/-- The start of the next member of a container, where it does not end: the first stands at once,
every other one behind a comma. -/
def skipComma (close : Char) (expected : Reason) (first : Bool) (cs : List Char) :
    Except Fault (List Char) :=
  if first then .ok cs
  else match cs with
    | ',' :: rest =>
      match skipBlanks rest with
      | [] => .error ⟨.endInValue, 0⟩
      | c :: after =>
        if c = close then .error (.on .trailingComma (c :: after)) else .ok (c :: after)
    | _ => .error (.on expected cs)

/-- The members of a container up to the character that closes it. The fuel bounds their number. -/
def readMembers {α : Type} (close : Char) (unfinished expected : Reason)
    (member : List Char → Except Fault (α × List Char)) :
    Nat → Bool → List Char → Except Fault (List α × List Char)
  | 0, _, _ => .error ⟨unfinished, 0⟩
  | fuel + 1, first, cs =>
    match skipBlanks cs with
    | [] => .error ⟨unfinished, 0⟩
    | c :: rest =>
      if c = close then .ok ([], rest)
      else do
        let start ← skipComma close expected first (c :: rest)
        let (x, rest) ← member start
        let (xs, rest) ← readMembers close unfinished expected member fuel false rest
        return (x :: xs, rest)

/-- The items of an array after its bracket. -/
def readItems (item : List Char → Except Fault (Tree × List Char)) (cs : List Char) :
    Except Fault (List Tree × List Char) :=
  readMembers ']' .endInList .expectedListCommaOrEnd item (cs.length + 1) true cs

/-- A key, its colon and the value after it. -/
def readField (item : List Char → Except Fault (Tree × List Char)) (cs : List Char) :
    Except Fault ((String × Tree) × List Char) :=
  match cs with
  | '"' :: rest => do
    let (key, rest) ← readString rest
    match skipBlanks rest with
    | ':' :: rest =>
      let (value, rest) ← item rest
      return ((key, value), rest)
    | [] => throw ⟨.endInObject, 0⟩
    | rest => throw (.on .expectedColon rest)
  | _ => .error (.on .keyMustBeString cs)

/-- The fields of an object after its brace, as written. -/
def readFields (item : List Char → Except Fault (Tree × List Char)) (cs : List Char) :
    Except Fault (List (String × Tree) × List Char) :=
  readMembers '}' .endInObject .expectedObjectCommaOrEnd (readField item) (cs.length + 1) true cs

/-! ## Values -/

/-- A word, a number or a string, by its first character; `none` for any other character. -/
def readScalar? (c : Char) (rest : List Char) : Option (Except Fault (Tree × List Char)) :=
  if c = 'n' then some ((Tree.null, ·) <$> readWord ['u', 'l', 'l'] rest)
  else if c = 't' then some ((Tree.bool true, ·) <$> readWord ['r', 'u', 'e'] rest)
  else if c = 'f' then some ((Tree.bool false, ·) <$> readWord ['a', 'l', 's', 'e'] rest)
  else if c = '-' then some ((fun (n, rest) => (.number n, rest)) <$> readNumber true rest)
  else if c.isDigit then
    some ((fun (n, rest) => (.number n, rest)) <$> readNumber false (c :: rest))
  else if c = '"' then some ((fun (s, rest) => (.text s, rest)) <$> readString rest)
  else none

/-- A value that nests at most so many containers. -/
def readValue : Nat → List Char → Except Fault (Tree × List Char)
  | allowance, cs =>
    match skipBlanks cs with
    | [] => .error ⟨.endInValue, 0⟩
    | c :: rest =>
      match readScalar? c rest with
      | some result => result
      | none =>
        if c = '[' ∨ c = '{' then
          match allowance with
          | 0 => .error (.on .nestingLimit (c :: rest))
          | allowance + 1 =>
            if c = '[' then do
              let (xs, rest) ← readItems (readValue allowance) rest
              return (.array xs, rest)
            else do
              let (fs, rest) ← readFields (readValue allowance) rest
              return (.object (Fields.ofPairs fs), rest)
        else .error (.on .expectedValue (c :: rest))

/-- How many containers a text may nest. -/
def maxNesting : Nat := 127

/-- A whole text: one value between blanks. -/
def readText (cs : List Char) : Except Fault Tree := do
  let (t, rest) ← readValue maxNesting cs
  match skipBlanks rest with
  | [] => return t
  | rest => throw (.on .trailingCharacters rest)

/-- The tree that a JSON text writes. -/
def parse (text : String) : Except SyntaxError Tree :=
  (readText text.toList).mapError (·.locate text.toList)

end ConfigOverlay.Json
