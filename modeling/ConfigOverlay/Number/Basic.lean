import ConfigOverlay.Number.Shortest

/-!
# Numbers of a configuration tree

A number is an integer that fits a signed or an unsigned 64-bit word, or a finite binary64 number.
The two are never equal, even when they denote the same value: `1` and `1.0` differ.
-/

namespace ConfigOverlay

/-- An integer of the 64-bit words, or a finite floating-point number. -/
inductive Number where
  | int (value : Int) (inRange : -2 ^ 63 ≤ value ∧ value < 2 ^ 64)
  | float (value : Binary64)
deriving DecidableEq

namespace Number

instance : Inhabited Number := ⟨.int 0 (by decide)⟩

/-- The integer, if it fits. -/
def ofInt? (n : Int) : Option Number :=
  if h : -2 ^ 63 ≤ n ∧ n < 2 ^ 64 then some (.int n h) else none

/-- Equality of numbers: of values within one kind, with `0.0` equal to `-0.0`. -/
def same : Number → Number → Bool
  | .int a _, .int b _ => a == b
  | .float x, .float y => x.same y
  | _, _ => false

def isInt : Number → Bool
  | .int _ _ => true
  | .float _ => false

end Number

/-! ## Text -/

/-- How a floating-point number is laid out: positionally while its leading digit stands between
two powers of ten, with an exponent otherwise. -/
structure FloatLayout where
  /-- The least exponent of the leading digit that is written positionally. -/
  leastPositional : Int
  /-- The greatest exponent of the leading digit that is written positionally. -/
  mostPositional : Int

/-- Numbers from `1e-5` up to, but without, `1e16` are positional. -/
def FloatLayout.tree : FloatLayout := ⟨-5, 15⟩

/-- The decimal digits of a natural number, most significant first. -/
def natText (n : Nat) : List Char := Nat.toDigits 10 n

/-- The decimal text of an integer. -/
def intText (n : Int) : List Char :=
  if n < 0 then '-' :: natText n.natAbs else natText n.natAbs

namespace FloatLayout

/-- Digits with a point after the first `n`, and a zero where one side would be empty. -/
def positional (digits : List Char) (lead : Int) : List Char :=
  if lead < 0 then
    '0' :: '.' :: List.replicate (-lead - 1).toNat '0' ++ digits
  else
    let whole := lead.toNat + 1
    let padded := digits ++ List.replicate (whole - digits.length) '0'
    let after := padded.drop whole
    padded.take whole ++ '.' :: (if after.isEmpty then ['0'] else after)

/-- One digit before the point, no point when there is no other digit, and a signed exponent. -/
def scientific (digits : List Char) (lead : Int) : List Char :=
  let mantissa := match digits with
    | first :: rest => if rest.isEmpty then [first] else first :: '.' :: rest
    | [] => []
  mantissa ++ 'e' :: (if lead < 0 then '-' else '+') :: natText lead.natAbs

/-- The text of a floating-point number. -/
def text (layout : FloatLayout) (x : Binary64) : List Char :=
  let d := x.shortest
  let digits := natText d.coefficient
  let lead := d.exponent + digits.length - 1
  let body :=
    if layout.leastPositional ≤ lead ∧ lead ≤ layout.mostPositional then positional digits lead
    else scientific digits lead
  if x.negative then '-' :: body else body

end FloatLayout

/-- The text of a number. -/
def Number.text : Number → List Char
  | .int n _ => intText n
  | .float x => FloatLayout.tree.text x

end ConfigOverlay
