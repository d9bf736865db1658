import ConfigOverlay.Number.Basic
import ConfigOverlay.Tree.Fields

/-!
# Configuration trees

A configuration tree has the shapes of a JSON document and one more, the *atom*: a wrapper that
says its content is to be taken as a whole. Merging consumes atoms and diffing produces them;
everywhere else they are transparent.

The fields of an object keep their insertion order. That no object holds a key twice is the
invariant `Tree.WellFormed`.
-/

namespace ConfigOverlay

/-- A configuration tree. -/
inductive Tree where
  | null
  | bool (value : Bool)
  | number (value : Number)
  | text (value : String)
  | array (items : List Tree)
  | object (fields : List (String × Tree))
  /-- The content, to be taken as a whole. -/
  | atom (content : Tree)

/-- What a tree is, below any atom wrappers. -/
inductive Kind where
  | null
  | bool
  | number
  | text
  | array
  | object
deriving DecidableEq, Repr

/-- The word for a kind in messages. -/
def Kind.name : Kind → String
  | .null => "null"
  | .bool => "bool"
  | .number => "number"
  | .text => "string"
  | .array => "array"
  | .object => "object"

/-- How deep containers may nest in one value, and how deep merging looks. -/
def maxDepth : Nat := 256

namespace Tree

instance : Inhabited Tree := ⟨.null⟩

/-- The object without fields. -/
def empty : Tree := .object []

/-- The tree of an integer, `null` when it does not fit. -/
def ofInt (n : Int) : Tree :=
  match Number.ofInt? n with
  | some n => .number n
  | none => .null

/-- The tree of a floating-point number, `null` when it is not finite. -/
def ofFloat (x : Option Binary64) : Tree :=
  match x with
  | some x => .number (.float x)
  | none => .null

/-! ## Identity -/

mutual

/-- Identity of trees, the order of keys included. -/
def beq : Tree → Tree → Bool
  | .null, .null => true
  | .bool a, .bool b => a == b
  | .number a, .number b => a == b
  | .text a, .text b => a == b
  | .array xs, .array ys => beqItems xs ys
  | .object fs, .object gs => beqFields fs gs
  | .atom a, .atom b => beq a b
  | _, _ => false

def beqItems : List Tree → List Tree → Bool
  | [], [] => true
  | x :: xs, y :: ys => beq x y && beqItems xs ys
  | _, _ => false

def beqFields : List (String × Tree) → List (String × Tree) → Bool
  | [], [] => true
  | (k, x) :: fs, (l, y) :: gs => k == l && (beq x y && beqFields fs gs)
  | _, _ => false

end

mutual

theorem eq_of_beq : ∀ {a b : Tree}, a.beq b = true → a = b
  | .null, b, h => by cases b <;> simp_all [beq]
  | .bool _, b, h => by cases b <;> simp_all [beq]
  | .number _, b, h => by cases b <;> simp_all [beq]
  | .text _, b, h => by cases b <;> simp_all [beq]
  | .array xs, b, h => by
    cases b <;> simp only [beq, Bool.false_eq_true] at h
    rw [eq_of_beqItems h]
  | .object fs, b, h => by
    cases b <;> simp only [beq, Bool.false_eq_true] at h
    rw [eq_of_beqFields h]
  | .atom a, b, h => by
    cases b <;> simp only [beq, Bool.false_eq_true] at h
    rw [eq_of_beq h]

theorem eq_of_beqItems : ∀ {xs ys : List Tree}, beqItems xs ys = true → xs = ys
  | [], ys, h => by cases ys <;> simp_all [beqItems]
  | x :: xs, [], h => by simp [beqItems] at h
  | x :: xs, y :: ys, h => by
    simp only [beqItems, Bool.and_eq_true] at h
    rw [eq_of_beq h.1, eq_of_beqItems h.2]

theorem eq_of_beqFields : ∀ {fs gs : List (String × Tree)}, beqFields fs gs = true → fs = gs
  | [], gs, h => by cases gs <;> simp_all [beqFields]
  | (k, x) :: fs, [], h => by simp [beqFields] at h
  | (k, x) :: fs, (l, y) :: gs, h => by
    simp only [beqFields, Bool.and_eq_true, beq_iff_eq] at h
    rw [h.1, eq_of_beq h.2.1, eq_of_beqFields h.2.2]

end

mutual

theorem beq_refl : ∀ a : Tree, a.beq a = true
  | .null | .bool _ | .number _ | .text _ => by simp [beq]
  | .array xs => by simp only [beq]; exact beqItems_refl xs
  | .object fs => by simp only [beq]; exact beqFields_refl fs
  | .atom a => by simp only [beq]; exact beq_refl a

theorem beqItems_refl : ∀ xs : List Tree, beqItems xs xs = true
  | [] => by simp [beqItems]
  | x :: xs => by simp [beqItems, beq_refl x, beqItems_refl xs]

theorem beqFields_refl : ∀ fs : List (String × Tree), beqFields fs fs = true
  | [] => by simp [beqFields]
  | (k, x) :: fs => by simp [beqFields, beq_refl x, beqFields_refl fs]

end

instance : DecidableEq Tree := fun a b =>
  if h : a.beq b = true then .isTrue (eq_of_beq h)
  else .isFalse fun e => h (e ▸ beq_refl a)

/-! ## Atoms -/

/-- Whether the tree is an atom at its root. -/
def isAtom : Tree → Bool
  | .atom _ => true
  | _ => false

/-- Wrap a tree as an atom; wrappers made this way never stack. -/
def asAtom : Tree → Tree
  | .atom t => .atom t
  | t => .atom t

/-- Strip all wrappers at the root. -/
def unwrap : Tree → Tree
  | .atom t => t.unwrap
  | t => t

mutual

/-- Strip all wrappers at every depth. -/
def erase : Tree → Tree
  | .array xs => .array (eraseItems xs)
  | .object fs => .object (eraseFields fs)
  | .atom t => t.erase
  | t => t

def eraseItems : List Tree → List Tree
  | [] => []
  | x :: xs => x.erase :: eraseItems xs

def eraseFields : List (String × Tree) → List (String × Tree)
  | [] => []
  | (k, x) :: fs => (k, x.erase) :: eraseFields fs

end

mutual

/-- No atom at any depth. -/
def atomFree : Tree → Bool
  | .array xs => atomFreeItems xs
  | .object fs => atomFreeFields fs
  | .atom _ => false
  | _ => true

def atomFreeItems : List Tree → Bool
  | [] => true
  | x :: xs => x.atomFree && atomFreeItems xs

def atomFreeFields : List (String × Tree) → Bool
  | [] => true
  | (_, x) :: fs => x.atomFree && atomFreeFields fs

end

/-! ## Shape -/

/-- What the tree is, below any wrappers. -/
def kind : Tree → Kind
  | .null => .null
  | .bool _ => .bool
  | .number _ => .number
  | .text _ => .text
  | .array _ => .array
  | .object _ => .object
  | .atom t => t.kind

mutual

/-- How many containers nest; wrappers do not count. -/
def depth : Tree → Nat
  | .array xs => depthItems xs + 1
  | .object fs => depthFields fs + 1
  | .atom t => t.depth
  | _ => 0

def depthItems : List Tree → Nat
  | [] => 0
  | x :: xs => max x.depth (depthItems xs)

def depthFields : List (String × Tree) → Nat
  | [] => 0
  | (_, x) :: fs => max x.depth (depthFields fs)

end

/-- The fields of a tree that is an object at its root. -/
def fields? : Tree → Option (Fields Tree)
  | .object fs => some fs
  | _ => none

/-- The items of a tree that is an array at its root. -/
def items? : Tree → Option (List Tree)
  | .array xs => some xs
  | _ => none

/-- The text of a tree that is a text at its root. -/
def text? : Tree → Option String
  | .text s => some s
  | _ => none

/-- The subtree under a key of an object. -/
def get? (k : String) : Tree → Option Tree
  | .object fs => Fields.get? k fs
  | _ => none

mutual

/-- No object holds a key twice, at any depth. -/
def WellFormed : Tree → Prop
  | .array xs => WellFormedItems xs
  | .object fs => Fields.Distinct fs ∧ WellFormedFields fs
  | .atom t => t.WellFormed
  | _ => True

def WellFormedItems : List Tree → Prop
  | [] => True
  | x :: xs => x.WellFormed ∧ WellFormedItems xs

def WellFormedFields : List (String × Tree) → Prop
  | [] => True
  | (_, x) :: fs => x.WellFormed ∧ WellFormedFields fs

end

end Tree

end ConfigOverlay
