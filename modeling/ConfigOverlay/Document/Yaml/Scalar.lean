import ConfigOverlay.Number.Decimal
import ConfigOverlay.Number.Digits
import ConfigOverlay.Tree.Basic

/-!
# Plain scalars of YAML

What a plain scalar stands for is decided by its text: one of the words for null and the truth
values, an integer in one of four radices, a floating-point number, or else the text itself.
Digits after a leading zero make a text, an integer too large for 64 bits is refused, and what is
not finite stands for null.
-/

namespace ConfigOverlay.Yaml

/-- The words for null; an empty scalar is null too. -/
def nullWords : List String := ["", "~", "null", "Null", "NULL"]

/-- The words for the truth values. -/
def boolWords : List (String × Bool) := [
  ("true", true), ("True", true), ("TRUE", true),
  ("false", false), ("False", false), ("FALSE", false)]

/-- The words for what is not finite. -/
def notFiniteWords : List String := [
  ".inf", ".Inf", ".INF", "+.inf", "+.Inf", "+.INF", "-.inf", "-.Inf", "-.INF",
  ".nan", ".NaN", ".NAN"]

/-- Zero followed by further digits, behind an optional sign. -/
def leadsWithZero (cs : List Char) : Bool :=
  match (DecimalText.splitSign cs).2 with
  | '0' :: c :: rest => (c :: rest).all Char.isDigit
  | _ => false

/-- The integer that a plain scalar writes. -/
def integer? (cs : List Char) : Option Int :=
  let (negative, body) := DecimalText.splitSign cs
  let magnitude := match body with
    | '0' :: 'x' :: digits => natural? 16 digits
    | '0' :: 'o' :: digits => natural? 8 digits
    | '0' :: 'b' :: digits => natural? 2 digits
    | _ => if leadsWithZero cs then none else natural? 10 body
  magnitude.map fun n => if negative then -(n : Int) else n

/-- The finite number that a plain scalar writes. -/
def finite? (cs : List Char) : Option Binary64 :=
  if leadsWithZero cs then none else (DecimalText.read? cs).join

/-- The tree of a plain scalar; nothing for an integer of 65 to 128 bits. -/
def plainTree? (cs : List Char) : Option Tree :=
  let text := String.ofList cs
  if nullWords.contains text then some .null
  else match boolWords.lookup text with
    | some b => some (.bool b)
    | none =>
      match integer? cs with
      | some n =>
        match Number.ofInt? n with
        | some n => some (.number n)
        | none =>
          if -2 ^ 127 ≤ n ∧ n < 2 ^ 128 then none
          else some (((finite? cs).map fun x => .number (.float x)).getD (.text text))
      | none =>
        if notFiniteWords.contains text then some .null
        else match finite? cs with
          | some x => some (.number (.float x))
          | none => some (.text text)

end ConfigOverlay.Yaml
