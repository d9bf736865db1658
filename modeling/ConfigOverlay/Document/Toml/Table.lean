import ConfigOverlay.KeyPath.Basic
import ConfigOverlay.Tree.Basic

/-!
# Tables of TOML

A document defines its tables step by step, and what was said so far decides what may follow. A
value is closed. A table with a header of its own takes no dotted keys from outside and no second
header; a table that only stood on the way to another may still get its header, and then moves
behind the entries of its parent; a table made by dotted keys may be extended by dotted keys only.
A path leads through an array of tables to its last element.
-/

namespace ConfigOverlay.Toml

/-- What a table was made by. -/
inductive Origin where
  /-- A header of its own. -/
  | header
  /-- The header of a table inside it. -/
  | way
  /-- A dotted key. -/
  | dotted
deriving DecidableEq, Repr

/-- An entry of a table. -/
inductive Entry where
  /-- A value, an array or an inline table. -/
  | value (tree : Tree)
  | table (origin : Origin) (entries : List (String × Entry))
  /-- An array of tables. -/
  | tables (items : List (List (String × Entry)))

/-- The entries of a table in order. -/
abbrev Entries := Fields Entry

/-- Write a value under a dotted key. The flag says whether the table at hand may take the value
itself; what lies below it decides anew. -/
def write? (value : Tree) : (mayTake : Bool) → KeyPath → Entries → Option Entries
  | _, [], _ => none
  | mayTake, [k], entries =>
    if mayTake && !entries.has k then some (entries.set k (.value value)) else none
  | _, k :: path, entries =>
    match entries.get? k with
    | none => (write? value true path []).map fun sub => entries.set k (.table .dotted sub)
    | some (.value _) => none
    | some (.table origin sub) =>
      if origin = .header then none
      else (write? value (origin = .dotted) path sub).map fun sub =>
        entries.set k (.table origin sub)
    | some (.tables items) => do
      let sub ← write? value false path (← items.getLast?)
      return entries.set k (.tables (items.dropLast ++ [sub]))

/-- The entries after writing pairs one after the other. -/
def fill? (pairs : List (KeyPath × Tree)) (entries : Entries) : Option Entries :=
  pairs.foldlM (fun entries (path, value) => write? value true path entries) entries

/-- Change the table at the end of a path of headers. -/
def modify? (f : Entries → Option Entries) : KeyPath → Entries → Option Entries
  | [], entries => f entries
  | k :: path, entries =>
    match entries.get? k with
    | none => (modify? f path []).map fun sub => entries.set k (.table .way sub)
    | some (.value _) => none
    | some (.table origin sub) =>
      (modify? f path sub).map fun sub => entries.set k (.table origin sub)
    | some (.tables items) => do
      let sub ← modify? f path (← items.getLast?)
      return entries.set k (.tables (items.dropLast ++ [sub]))

/-- Give a key the table of its header, which goes to the end. -/
def openTable? (k : String) (pairs : List (KeyPath × Tree)) (entries : Entries) :
    Option Entries := do
  let start ← match entries.get? k with
    | none => some []
    | some (.table .way sub) => some sub
    | some _ => none
  return entries.erase k ++ [(k, .table .header (← fill? pairs start))]

/-- Append a table to the array of tables at a key. -/
def appendTable? (k : String) (pairs : List (KeyPath × Tree)) (entries : Entries) :
    Option Entries := do
  let items ← match entries.get? k with
    | none => some []
    | some (.tables items) => some items
    | some _ => none
  return entries.set k (.tables (items ++ [← fill? pairs []]))

mutual

/-- The tree of an entry. -/
def Entry.tree : Entry → Tree
  | .value t => t
  | .table _ entries => .object (fieldTrees entries)
  | .tables items => .array (itemTrees items)

def fieldTrees : List (String × Entry) → List (String × Tree)
  | [] => []
  | (k, e) :: entries => (k, e.tree) :: fieldTrees entries

def itemTrees : List (List (String × Entry)) → List Tree
  | [] => []
  | entries :: items => .object (fieldTrees entries) :: itemTrees items

end

end ConfigOverlay.Toml
