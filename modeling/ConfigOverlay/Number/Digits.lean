/-!
# Digits

Digits of a radix up to sixteen, with letters in either case, and the natural numbers they write.
-/

namespace ConfigOverlay

/-- The value of a digit in a radix up to sixteen. -/
def digit? (radix : Nat) (c : Char) : Option Nat :=
  let value :=
    if c.isDigit then c.toNat - '0'.toNat
    else if 'a' ≤ c ∧ c ≤ 'f' then c.toNat - 'a'.toNat + 10
    else if 'A' ≤ c ∧ c ≤ 'F' then c.toNat - 'A'.toNat + 10
    else radix
  if value < radix then some value else none

/-- The number that digits write in a radix; there must be one digit at least. -/
def natural? (radix : Nat) (cs : List Char) : Option Nat :=
  if cs.isEmpty then none
  else cs.foldlM (fun n c => (digit? radix c).map (radix * n + ·)) 0

/-- The integer that decimal digits write behind an optional sign. -/
def decimalInteger? : List Char → Option Int
  | '+' :: cs => (natural? 10 cs).map fun n : Nat => (n : Int)
  | '-' :: cs => (natural? 10 cs).map fun n : Nat => -(n : Int)
  | cs => (natural? 10 cs).map fun n : Nat => (n : Int)

/-- The character whose code point some hexadecimal digits write. -/
def codePoint? (digits : List Char) : Option Char := do
  let n ← natural? 16 digits
  if n < 0xD800 ∨ (0xDFFF < n ∧ n < 0x110000) then some (Char.ofNat n) else none

end ConfigOverlay
