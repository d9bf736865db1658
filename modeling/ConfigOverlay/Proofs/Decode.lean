import ConfigOverlay.Proofs.Argument
import ConfigOverlay.Proofs.Assign
import Mathlib.Tactic.SplitIfs

/-!
# Taking a tree apart and writing it back

Below the root a tree that is taken apart has branches: its leaves, with their paths from it. A
tree that is not has one branch, itself, with no path (`branches`). The decoded object lists the
branches of its fields behind their keys (`decode_object`, `fieldBranches`).

Writing the branches of an overlay over a base, `imprint`, therefore goes key by key
(`get?_imprintFields`): a key of the overlay goes on with the child of the base, every other key
keeps its value. Over a base without fields it writes the overlay itself, without the wrappers
around its leaves (`imprint_eq_unwrapLeaves`).
-/

namespace ConfigOverlay.Tree

/-! ## Branches -/

/-- Below the root, an object is taken apart when it is not empty and all its keys can be
written. -/
def splits : Tree → Bool
  | .object fs => !fs.isEmpty && (Fields.keys fs).all isAddressable
  | _ => false

/-- The leaves of a tree below the root, with their paths from it. -/
def branches (t : Tree) : List (KeyPath × Tree) :=
  if t.splits then t.decode else [([], t.unwrap)]

/-- The branches of fields behind their keys. -/
def fieldBranches (fs : Fields Tree) : List (KeyPath × Tree) :=
  fs.flatMap fun f => (branches f.2).map fun e => (f.1 :: e.1, e.2)

theorem fieldBranches_append (fs gs : Fields Tree) :
    fieldBranches (fs ++ gs) = fieldBranches fs ++ fieldBranches gs := List.flatMap_append

theorem fieldBranches_cons (k : String) (x : Tree) (fs : Fields Tree) :
    fieldBranches ((k, x) :: fs) =
      (branches x).map (fun e => (k :: e.1, e.2)) ++ fieldBranches fs := rfl

theorem forall_mem_fieldBranches {P : KeyPath × Tree → Prop} {fs : Fields Tree} :
    (∀ e ∈ fieldBranches fs, P e) ↔ ∀ f ∈ fs, ∀ e ∈ branches f.2, P (f.1 :: e.1, e.2) := by
  simp only [fieldBranches, List.forall_mem_flatMap, List.forall_mem_map]

theorem splits_object {fs : Fields Tree} :
    (object fs).splits = true ↔ fs ≠ [] ∧ ∀ k ∈ fs.keys, isAddressable k = true := by
  rw [splits, Bool.and_eq_true, Bool.not_eq_true', List.isEmpty_eq_false_iff, List.all_eq_true]

theorem exists_object_of_splits {t : Tree} (h : t.splits = true) : ∃ fs, t = object fs := by
  cases t with
  | object fs => exact ⟨fs, rfl⟩
  | _ => cases h

theorem decodeFields_eq_flatMap (path : KeyPath) (fs : Fields Tree) :
    decodeFields path fs = fs.flatMap fun f => decodeAt (path ++ [f.1]) f.2 := by
  induction fs with
  | nil => rfl
  | cons f fs ih => rw [decodeFields, ih, List.flatMap_cons]

/-- Below the root, a longer path only makes the paths of the leaves longer. -/
theorem decodeAt_cons (k : String) {path : KeyPath} (hne : path ≠ []) (t : Tree) :
    decodeAt (k :: path) t = (decodeAt path t).map fun e => (k :: e.1, e.2) := by
  induction t generalizing path with
  | object fs ih =>
    have hfields : decodeFields (k :: path) fs =
        (decodeFields path fs).map fun e => (k :: e.1, e.2) := by
      rw [decodeFields_eq_flatMap, decodeFields_eq_flatMap, List.map_flatMap]
      exact List.flatMap_congr fun f hf => ih f.1 f.2 hf (by simp)
    rw [decodeAt, decodeAt, hfields]
    simp only [List.isEmpty_cons, List.isEmpty_eq_false_iff.2 hne]
    split_ifs <;> rfl
  | _ => rfl

theorem decodeFields_cons (k : String) (fs : Fields Tree) :
    decodeFields [k] fs = (decodeFields [] fs).map fun e => (k :: e.1, e.2) := by
  rw [decodeFields_eq_flatMap, decodeFields_eq_flatMap, List.map_flatMap]
  exact List.flatMap_congr fun f _ => decodeAt_cons k (by simp) f.2

theorem decodeAt_singleton (k : String) (t : Tree) :
    decodeAt [k] t = (branches t).map fun e => (k :: e.1, e.2) := by
  cases t with
  | object fs =>
    have hone : decodeAt [k] (object fs) =
        if (object fs).splits then decodeFields [k] fs else [([k], object fs)] := by
      rw [decodeAt, splits, Bool.and_comm]
      rfl
    have hroot : (object fs).splits = true → decode (object fs) = decodeFields [] fs := by
      intro h
      rw [decode, decodeAt, List.all_eq_true.2 (splits_object.1 h).2]
      rfl
    rw [hone, branches]
    split_ifs with h
    · rw [hroot h, decodeFields_cons]
    · rfl
  | _ => rfl

/-- **The decoded object**: the branches of its fields behind their keys. -/
theorem decode_object {fs : Fields Tree} (h : ∀ k ∈ fs.keys, isAddressable k = true) :
    decode (object fs) = fieldBranches fs := by
  rw [decode, decodeAt, if_pos (by simpa using h), decodeFields_eq_flatMap]
  exact List.flatMap_congr fun f _ => decodeAt_singleton f.1 f.2

/-- An object with a key that cannot be written is one leaf at the root. -/
theorem decode_object_of_not {fs : Fields Tree} (h : ¬ ∀ k ∈ fs.keys, isAddressable k = true) :
    decode (object fs) = [([], object fs)] := by
  have hall : (Fields.keys fs).all isAddressable = false := by simpa using h
  rw [decode, decodeAt, hall]
  rfl

theorem branches_of_splits {fs : Fields Tree} (h : (object fs).splits = true) :
    branches (object fs) = fieldBranches fs := by
  rw [branches, if_pos h]
  exact decode_object (splits_object.1 h).2

theorem branches_of_not_splits {t : Tree} (h : t.splits = false) :
    branches t = [([], t.unwrap)] := by
  rw [branches, h]
  rfl

theorem branches_ne_nil (t : Tree) : branches t ≠ [] := by
  induction t with
  | object fs ih =>
    cases h : (Tree.object fs).splits with
    | false => simp [branches_of_not_splits h]
    | true =>
      obtain ⟨f, fs, rfl⟩ := List.exists_cons_of_ne_nil (splits_object.1 h).1
      rw [branches_of_splits h, fieldBranches_cons]
      simp [ih f.1 f.2 (by simp)]
  | _ => simp [branches, splits]

theorem fieldBranches_ne_nil {fs : Fields Tree} (h : fs ≠ []) : fieldBranches fs ≠ [] := by
  obtain ⟨⟨k, x⟩, fs, rfl⟩ := List.exists_cons_of_ne_nil h
  simp [fieldBranches_cons, branches_ne_nil]

/-- Every branch can be written, and its leaf has every property that passes from an object to its
fields and from a tree to what it wraps. -/
theorem forall_mem_branches {P : Tree → Prop} (hfield : ∀ {fs}, P (object fs) → ∀ f ∈ fs, P f.2)
    (hunwrap : ∀ {t}, P t → P t.unwrap) {t : Tree} (h : P t) :
    ∀ e ∈ branches t, e.1.Addressable ∧ P e.2 := by
  induction t with
  | object fs ih =>
    cases hs : (Tree.object fs).splits with
    | false =>
      rw [branches_of_not_splits hs]
      simpa [KeyPath.Addressable] using hunwrap h
    | true =>
      rw [branches_of_splits hs, forall_mem_fieldBranches]
      intro f hf e he
      have hkey := (splits_object.1 hs).2 f.1 (Fields.mem_keys_of_mem hf)
      obtain ⟨hpath, hleaf⟩ := ih f.1 f.2 hf (hfield h f hf) e he
      exact ⟨List.forall_mem_cons.2 ⟨hkey, hpath⟩, hleaf⟩
  | _ => simpa [branches, splits, KeyPath.Addressable] using hunwrap h

/-! ## Trees without the wrappers of their leaves -/

mutual

/-- Strip the wrappers at the root of every leaf, where objects whose keys can all be written are
taken apart. -/
def unwrapLeaves : Tree → Tree
  | .object fs =>
    if (Fields.keys fs).all isAddressable then .object (unwrapLeavesFields fs) else .object fs
  | t => t.unwrap

def unwrapLeavesFields : List (String × Tree) → List (String × Tree)
  | [] => []
  | (k, x) :: fs => (k, x.unwrapLeaves) :: unwrapLeavesFields fs

end

theorem unwrapLeaves_object {fs : Fields Tree} (h : ∀ k ∈ fs.keys, isAddressable k = true) :
    (object fs).unwrapLeaves = object (fs.map fun f => (f.1, f.2.unwrapLeaves)) := by
  rw [unwrapLeaves, if_pos (List.all_eq_true.2 h)]
  congr 1
  clear h
  induction fs with
  | nil => rfl
  | cons f fs ih => rw [unwrapLeavesFields, ih, List.map_cons]

theorem unwrapLeaves_of_not_splits {t : Tree} (h : t.splits = false) :
    t.unwrapLeaves = t.unwrap := by
  cases t with
  | object fs =>
    rw [splits, Bool.and_eq_false_iff, Bool.not_eq_false', List.isEmpty_iff] at h
    rw [unwrapLeaves]
    rcases h with rfl | hall
    · rfl
    · rw [hall]
      rfl
  | _ => rfl

theorem unwrapLeaves_of_atomFree {t : Tree} (h : t.atomFree = true) : t.unwrapLeaves = t := by
  induction t with
  | object fs ih =>
    rw [atomFree_object] at h
    by_cases hk : ∀ k ∈ Fields.keys fs, isAddressable k = true
    · have hfs : fs.map (fun f => (f.1, f.2.unwrapLeaves)) = fs.map id :=
        List.map_congr_left fun f hf => by rw [ih f.1 f.2 hf (h f hf), id]
      rw [unwrapLeaves_object hk, hfs, List.map_id]
    · rw [unwrapLeaves, if_neg (by simpa using hk)]
  | atom t ih => simp at h
  | _ => rfl

/-! ## Imprints -/

/-- Write the branches of an overlay over a base. -/
def imprint (overlay base : Tree) : Tree := assignAll (branches overlay) base

/-- Write the branches of fields over others. -/
def imprintFields (fs gs : Fields Tree) : Fields Tree :=
  fs.foldl (fun gs f => Fields.set f.1 (imprint f.2 ((Fields.get? f.1 gs).getD .null)) gs) gs

theorem imprintFields_cons (f : String × Tree) (fs gs : Fields Tree) :
    imprintFields (f :: fs) gs =
      imprintFields fs (Fields.set f.1 (imprint f.2 ((Fields.get? f.1 gs).getD .null)) gs) := rfl

theorem assignAll_fieldBranches (fs gs : Fields Tree) :
    assignAll (fieldBranches fs) (object gs) = object (imprintFields fs gs) := by
  induction fs generalizing gs with
  | nil => rfl
  | cons f fs ih =>
    rw [fieldBranches_cons, assignAll_append, assignAll_below f.1 (branches_ne_nil f.2),
      imprintFields_cons, ← ih]
    rfl

theorem imprint_of_splits {fs : Fields Tree} (h : (object fs).splits = true) (base : Tree) :
    imprint (object fs) base = object (imprintFields fs base.fieldsOrEmpty) := by
  obtain ⟨f, fs, rfl⟩ := List.exists_cons_of_ne_nil (splits_object.1 h).1
  rw [imprint, branches_of_splits h, fieldBranches_cons, assignAll_append,
    assignAll_below f.1 (branches_ne_nil f.2), assignAll_fieldBranches, imprintFields_cons]
  rfl

theorem imprint_of_not_splits {t : Tree} (h : t.splits = false) (base : Tree) :
    imprint t base = t.unwrap := by
  rw [imprint, branches_of_not_splits h]
  rfl

/-- **An imprint by key.** -/
theorem get?_imprintFields {fs : Fields Tree} (hd : fs.Distinct) (gs : Fields Tree) (k : String) :
    Fields.get? k (imprintFields fs gs) = (Fields.get? k fs).elim (Fields.get? k gs) fun x =>
      some (imprint x ((Fields.get? k gs).getD .null)) := by
  induction fs generalizing gs with
  | nil => rfl
  | cons f fs ih =>
    obtain ⟨l, x⟩ := f
    rw [Fields.distinct_cons] at hd
    rw [imprintFields_cons, ih hd.2, Fields.get?_cons]
    by_cases hk : k = l
    · subst hk
      rw [if_pos rfl, Fields.get?_eq_none.2 hd.1, Option.elim_none, Option.elim_some,
        Fields.get?_set_self]
    · rw [if_neg hk, Fields.get?_set_of_ne hk]

theorem distinct_imprintFields {gs : Fields Tree} (h : gs.Distinct) (fs : Fields Tree) :
    (imprintFields fs gs).Distinct := by
  induction fs generalizing gs with
  | nil => exact h
  | cons f fs ih => exact ih (h.set f.1 _)

theorem keys_imprintFields {fs gs : Fields Tree} (h : ∀ f ∈ fs, f.1 ∈ gs.keys) :
    (imprintFields fs gs).keys = gs.keys := by
  induction fs generalizing gs with
  | nil => rfl
  | cons f fs ih =>
    rw [List.forall_mem_cons] at h
    have hset : Fields.keys (Fields.set f.1 (imprint f.2 ((Fields.get? f.1 gs).getD .null)) gs) =
        gs.keys := by
      rw [Fields.keys_set, if_pos h.1]
    rw [imprintFields_cons, ih (by rw [hset]; exact h.2), hset]

theorem imprintFields_nil {fs : Fields Tree} (hd : fs.Distinct) :
    imprintFields fs [] = fs.map fun f => (f.1, imprint f.2 .null) := by
  refine Fields.foldl_set_of_distinct hd fun gs f _ hnew => ?_
  rw [Fields.get?_eq_none.2 hnew]
  rfl

/-- **An overlay writes itself** over whatever holds no fields, without the wrappers of its
leaves. -/
theorem imprint_eq_unwrapLeaves {overlay base : Tree} (h : overlay.WellFormed)
    (hb : base.fieldsOrEmpty = []) : imprint overlay base = overlay.unwrapLeaves := by
  induction overlay generalizing base with
  | object fs ih =>
    cases hs : (Tree.object fs).splits with
    | false => rw [imprint_of_not_splits hs, unwrapLeaves_of_not_splits hs]
    | true =>
      obtain ⟨hd, hf⟩ := wellFormed_object.1 h
      have hfields : fs.map (fun f => (f.1, imprint f.2 .null)) =
          fs.map fun f => (f.1, f.2.unwrapLeaves) :=
        List.map_congr_left fun f hfm => by rw [ih f.1 f.2 hfm (hf f hfm) rfl]
      rw [imprint_of_splits hs, hb, imprintFields_nil hd, hfields,
        unwrapLeaves_object (splits_object.1 hs).2]
  | _ => rfl

theorem imprint_of_bare {overlay base : Tree} (h : overlay.Plain) (hb : base.fieldsOrEmpty = []) :
    imprint overlay base = overlay := by
  rw [imprint_eq_unwrapLeaves h.wellFormed hb, unwrapLeaves_of_atomFree h.atomFree]

/-- **Writing the leaves of an object into the empty one rebuilds it**, key by key in order, without
the wrappers of the leaves. -/
theorem assignAll_decode_eq_unwrapLeaves {fs : Fields Tree} (h : (object fs).WellFormed)
    (hk : ∀ k ∈ fs.keys, isAddressable k = true) :
    assignAll (decode (object fs)) .empty = (object fs).unwrapLeaves := by
  obtain ⟨hd, hf⟩ := wellFormed_object.1 h
  rw [decode_object hk, empty, assignAll_fieldBranches, imprintFields_nil hd,
    unwrapLeaves_object hk]
  congr 1
  exact List.map_congr_left fun f hfm => by rw [imprint_eq_unwrapLeaves (hf f hfm) rfl]

theorem assignAll_decode {fs : Fields Tree} (h : (object fs).Plain)
    (hk : ∀ k ∈ fs.keys, isAddressable k = true) :
    assignAll (decode (object fs)) .empty = object fs := by
  rw [assignAll_decode_eq_unwrapLeaves h.wellFormed hk, unwrapLeaves_of_atomFree h.atomFree]

end ConfigOverlay.Tree
