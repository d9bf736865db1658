import ConfigOverlay.Number.Binary64

/-!
# Decimal texts of floating-point numbers

A decimal text has an optional sign, digits with an optional point among or around them, and an
optional exponent. It stands for the binary64 number nearest to its exact value. The words for
infinity and not-a-number, in any case, are read too, and so are texts that are too large; they
stand for no finite number.
-/

namespace ConfigOverlay

namespace DecimalText

/-- The value of decimal digits. -/
def digitsValue (cs : List Char) : Nat :=
  cs.foldl (fun n c => 10 * n + (c.toNat - '0'.toNat)) 0

/-- The sign of a text, and the text without it. -/
def splitSign : List Char → Bool × List Char
  | '-' :: cs => (true, cs)
  | '+' :: cs => (false, cs)
  | cs => (false, cs)

/-- The exponent at the end of a text: zero at the end, and nothing for other characters. -/
def readExponent? : List Char → Option Int
  | [] => some 0
  | c :: cs =>
    if c = 'e' ∨ c = 'E' then
      let (negative, digits) := splitSign cs
      if digits.isEmpty || !digits.all Char.isDigit then none
      else some (if negative then -(digitsValue digits : Int) else digitsValue digits)
    else none

/-- The number of a text without sign. -/
def readUnsigned? (negative : Bool) (cs : List Char) : Option (Option Binary64) := do
  let whole := cs.takeWhile Char.isDigit
  let rest := cs.dropWhile Char.isDigit
  let (fraction, rest) := match rest with
    | '.' :: rest => (rest.takeWhile Char.isDigit, rest.dropWhile Char.isDigit)
    | rest => ([], rest)
  if whole.isEmpty && fraction.isEmpty then none
  let e ← readExponent? rest
  let digits := digitsValue (whole ++ fraction)
  return Binary64.ofDecimal? negative digits (e - fraction.length)

/-- The words for what is not finite. -/
def notFinite : List (List Char) :=
  [['i', 'n', 'f'], ['i', 'n', 'f', 'i', 'n', 'i', 't', 'y'], ['n', 'a', 'n']]

/-- The number that a text stands for: nothing when the text is none, and no finite number when its
value is not finite. -/
def read? (cs : List Char) : Option (Option Binary64) :=
  let (negative, body) := splitSign cs
  if notFinite.contains (body.map Char.toLower) then some none
  else readUnsigned? negative body

end DecimalText

end ConfigOverlay
