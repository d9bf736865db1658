import ConfigOverlay.Number.Decimal
import ConfigOverlay.Number.Digits
import ConfigOverlay.Tree.Basic

/-!
# Scalars of TOML without quotes

Truth values, integers in four radices and floating-point numbers. Underscores may stand between
two digits, a leading zero must stand alone, and a point needs digits on both sides. What is not
finite stands for null; so does a negative number too large for the format, while a positive one is
refused.
-/

namespace ConfigOverlay.Toml

/-- Digits without the underscores between them. -/
def ungroup? (isDigit : Char → Bool) : List Char → Option (List Char)
  | [] => none
  | [c] => if isDigit c then some [c] else none
  | c :: '_' :: cs => if isDigit c then (ungroup? isDigit cs).map (c :: ·) else none
  | c :: cs => if isDigit c then (ungroup? isDigit cs).map (c :: ·) else none

/-- The decimal digits of a whole part, where a leading zero stands alone. -/
def whole? (cs : List Char) : Option (List Char) := do
  let digits ← ungroup? Char.isDigit cs
  if digits.head? = some '0' && cs.length ≠ 1 then none else return digits

/-- An integer of a radix that is written behind a mark. -/
def marked? (radix : Nat) (cs : List Char) : Option Int := do
  let digits ← ungroup? (fun c => (digit? radix c).isSome) cs
  return (← natural? radix digits : Nat)

/-- The digits of an exponent, with their sign. -/
def exponent? (cs : List Char) : Option (List Char) :=
  match cs with
  | '-' :: cs => (ungroup? Char.isDigit cs).map ('-' :: ·)
  | '+' :: cs => ungroup? Char.isDigit cs
  | cs => ungroup? Char.isDigit cs

/-- A number with a fraction or an exponent, without underscores. -/
def decimal? (cs : List Char) : Option (List Char) := do
  let isMark := fun c : Char => c = 'e' || c = 'E'
  let mantissa := cs.takeWhile fun c => !isMark c
  let power ← match cs.dropWhile fun c => !isMark c with
    | _ :: digits => (exponent? digits).map ('e' :: ·)
    | [] => some []
  let whole ← whole? (mantissa.takeWhile (· ≠ '.'))
  match mantissa.dropWhile (· ≠ '.') with
  | _ :: digits => return whole ++ '.' :: (← ungroup? Char.isDigit digits) ++ power
  | [] => if power.isEmpty then none else return whole ++ power

/-- The tree of a number without its sign. -/
def unsignedTree? (negative : Bool) (cs : List Char) : Option Tree :=
  if cs = ['i', 'n', 'f'] ∨ cs = ['n', 'a', 'n'] then some .null
  else
    match whole? cs with
    | some digits => do
      let n : Int := DecimalText.digitsValue digits
      let n := if negative then -n else n
      if -2 ^ 63 ≤ n ∧ n < 2 ^ 63 then return .ofInt n else none
    | none => do
      match ← DecimalText.readUnsigned? negative (← decimal? cs) with
      | some x => return .number (.float x)
      | none => if negative then return .null else none

/-- The tree of a scalar without quotes. -/
def scalarTree? (cs : List Char) : Option Tree :=
  let radix := fun (r : Nat) (digits : List Char) =>
    (marked? r digits).bind fun n => if n < 2 ^ 63 then some (Tree.ofInt n) else none
  match cs with
  | ['t', 'r', 'u', 'e'] => some (.bool true)
  | ['f', 'a', 'l', 's', 'e'] => some (.bool false)
  | '0' :: 'x' :: digits => radix 16 digits
  | '0' :: 'o' :: digits => radix 8 digits
  | '0' :: 'b' :: digits => radix 2 digits
  | '-' :: cs => unsignedTree? true cs
  | '+' :: cs => unsignedTree? false cs
  | cs => unsignedTree? false cs

end ConfigOverlay.Toml
