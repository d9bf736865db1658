import ConfigOverlay.Json.Value
import ConfigOverlay.Proofs.Json.RoundTrip
import ConfigOverlay.Registry
import ConfigOverlay.Target

/-!
# Atoms are transparent

Outside of merging and diffing an atom counts as its content. Three walks have to agree on that:
the one that makes a document of a tree, the one that makes a tree of a document, and the one that
writes a tree in a format.

**Theorem (`atoms_transparent`).** By way of a document a tree loses its atoms and keeps everything
else, and nothing that is read from it, written of it or said about its shape depends on them. What
comes back equals the tree exactly when there was no atom.

Each walk is restated over members. Writing does not see atoms, in any format (`serialize_erase`);
documents are one of the formats (`serialize_document`) and compact texts another
(`toJson_eq_serialize`), so both follow. The way back is an induction over the tree
(`toTree_ofTree`).
-/

namespace ConfigOverlay

namespace Json.Value

/-! ## Documents by structure -/

@[simp] theorem ofTree_array (xs : List Tree) : ofTree (.array xs) = .array (xs.map ofTree) := by
  rw [ofTree]
  congr 1
  induction xs with
  | nil => rfl
  | cons x xs ih => rw [ofItems, ih, List.map_cons]

@[simp] theorem ofTree_object (fs : Fields Tree) :
    ofTree (.object fs) = .object (Fields.ofPairs (fs.map fun f => (f.1, ofTree f.2))) := by
  rw [ofTree]
  congr 2
  induction fs with
  | nil => rfl
  | cons f fs ih => rw [ofFields, ih, List.map_cons]

@[simp] theorem ofTree_atom (t : Tree) : ofTree (.atom t) = ofTree t := by rw [ofTree]

@[simp] theorem toTree_array (vs : List Value) : toTree (.array vs) = .array (vs.map toTree) := by
  rw [toTree]
  congr 1
  induction vs with
  | nil => rfl
  | cons v vs ih => rw [toItems, ih, List.map_cons]

@[simp] theorem toTree_object (fs : Fields Value) :
    toTree (.object fs) = .object (Fields.ofPairs (fs.map fun f => (f.1, toTree f.2))) := by
  rw [toTree]
  congr 2
  induction fs with
  | nil => rfl
  | cons f fs ih => rw [toFields, ih, List.map_cons]

/-- **By way of a document a tree loses its atoms**, and nothing else. -/
theorem toTree_ofTree {t : Tree} (h : t.WellFormed) : (ofTree t).toTree = t.erase := by
  induction t with
  | array xs ih =>
    rw [ofTree_array, toTree_array, Tree.erase_array, List.map_map]
    exact congrArg _ (List.map_congr_left fun x hx => ih x hx (Tree.wellFormed_array.1 h x hx))
  | object fs ih =>
    obtain ⟨hd, hf⟩ := Tree.wellFormed_object.1 h
    -- No key is repeated, so neither walk joins two fields.
    have hmap : ∀ g : Tree → Value, Fields.Distinct (fs.map fun f => (f.1, g f.2)) := fun g => by
      rw [Fields.Distinct, Fields.keys_map fun _ => g]
      exact hd
    have hback : ((fs.map fun f => (f.1, ofTree f.2)).map fun f => (f.1, toTree f.2)) =
        fs.map fun f => (f.1, f.2.erase) := by
      rw [List.map_map]
      exact List.map_congr_left fun f hfm => congrArg (f.1, ·) (ih f.1 f.2 hfm (hf f hfm))
    rw [ofTree_object, Fields.ofPairs_of_distinct (hmap ofTree), toTree_object, hback,
      Tree.erase_object, Fields.ofPairs_of_distinct]
    rw [Fields.Distinct, Fields.keys_map fun _ => Tree.erase]
    exact hd
  | atom t ih =>
    rw [ofTree_atom, Tree.erase_atom]
    exact ih (Tree.wellFormed_atom.1 h)
  | _ => rfl

end Json.Value

namespace Tree

open Json

variable {ω : Type} (s : Serializer ω)

/-! ## Writing by structure -/

@[simp] theorem serialize_array (xs : List Tree) :
    (array xs).serialize s = s.array (xs.map (serialize s)) := by
  rw [serialize]
  congr 1
  induction xs with
  | nil => rfl
  | cons x xs ih => rw [serializeItems, ih, List.map_cons]

@[simp] theorem serialize_object (fs : Fields Tree) :
    (object fs).serialize s = s.object (fs.map fun f => (f.1, f.2.serialize s)) := by
  rw [serialize]
  congr 1
  induction fs with
  | nil => rfl
  | cons f fs ih => rw [serializeFields, ih, List.map_cons]

@[simp] theorem serialize_atom (t : Tree) : (atom t).serialize s = t.serialize s := by
  rw [serialize]

/-- **No format sees atoms.** -/
theorem serialize_erase (t : Tree) : t.erase.serialize s = t.serialize s := by
  induction t with
  | array xs ih =>
    rw [erase_array, serialize_array, serialize_array, List.map_map]
    exact congrArg _ (List.map_congr_left ih)
  | object fs ih =>
    rw [erase_object, serialize_object, serialize_object, List.map_map]
    exact congrArg _ (List.map_congr_left fun f hf => congrArg (f.1, ·) (ih f.1 f.2 hf))
  | atom t ih => rw [erase_atom, ih, serialize_atom]
  | _ => rfl

theorem serialize_document (t : Tree) : t.serialize .document = .ofTree t := by
  induction t with
  | array xs ih =>
    rw [serialize_array, Value.ofTree_array, List.map_congr_left ih]
    rfl
  | object fs ih =>
    have hfs : (fs.map fun f => (f.1, f.2.serialize .document)) =
        fs.map fun f => (f.1, Value.ofTree f.2) :=
      List.map_congr_left fun f hf => congrArg (f.1, ·) (ih f.1 f.2 hf)
    rw [serialize_object, Value.ofTree_object, hfs]
    rfl
  | atom t ih => rw [serialize_atom, ih, Value.ofTree_atom]
  | _ => rfl

theorem ofTree_erase (t : Tree) : Value.ofTree t.erase = Value.ofTree t := by
  rw [← serialize_document, serialize_erase, serialize_document]

/-! ## Compact texts -/

theorem joined_eq_intercalate (texts : List (List Char)) :
    joined texts = List.intercalate [','] texts := by
  induction texts with
  | nil => rfl
  | cons text texts ih =>
    cases texts with
    | nil => simp [joined, List.intercalate]
    | cons text' texts =>
      rw [joined, List.flatMap_cons, List.intercalate_cons_cons, ← ih]
      simp [joined]

theorem write_eq_serialize (t : Tree) : write [] t = t.serialize .compact := by
  induction t with
  | bool b => cases b <;> rfl
  | array xs ih =>
    rw [write, writeItems_eq, joined_eq_intercalate, List.map_congr_left ih, serialize_array]
    rfl
  | object fs ih =>
    have hfs : fs.map (fieldText []) =
        (fs.map fun f => (f.1, f.2.serialize .compact)).map fun f => quote f.1 ++ ':' :: f.2 := by
      rw [List.map_map]
      refine List.map_congr_left fun f hf => ?_
      rw [fieldText, ih f.1 f.2 hf]
      rfl
    rw [write, writeFields_eq, joined_eq_intercalate, hfs, serialize_object]
    rfl
  | atom t ih =>
    rw [write, List.nil_append, ih, serialize_atom]
  | _ => rfl

theorem toJson_eq_serialize (t : Tree) : t.toJson = String.ofList (t.serialize .compact) :=
  congrArg String.ofList (write_eq_serialize t)

/-! ## Shape -/

theorem kind_erase (t : Tree) : t.erase.kind = t.kind := by
  induction t with
  | array xs => rw [erase_array, kind, kind]
  | object fs => rw [erase_object, kind, kind]
  | atom t ih => rw [erase_atom, ih, kind]
  | _ => rfl

theorem erase_same_iff {t : Tree} (h : t.WellFormed) :
    t.erase.same t = true ↔ t.atomFree = true := by
  constructor
  · intro hs
    exact atomFree_of_same h h.erase (same_symm h.erase h hs) (atomFree_erase t)
  · intro hf
    rw [erase_of_atomFree hf]
    exact same_refl h

theorem unbindWith_writeDocument {t : Tree} (h : t.WellFormed) :
    unbindWith writeDocument t = .ok t.erase := by
  rw [← Value.toTree_ofTree h, ← serialize_document]
  rfl

end Tree

/-! ## What targets and factories do with trees -/

/-- A shape reads its values from the trees of documents. -/
theorem Schema.Shape.read_eq_bindWith (shape : Schema.Shape) {t : Tree} (h : t.WellFormed) :
    shape.read t = t.bindWith fun v => shape.bind v.toTree := by
  rw [Tree.bindWith, Json.Value.toTree_ofTree h, Schema.Shape.read]

/-- A section reads its layers from the trees of documents. -/
theorem Schema.Section.readLayer_eq_bindWith (sec : Schema.Section) {t : Tree}
    (h : t.WellFormed) : sec.readLayer t = t.bindWith fun v => sec.bindLayer v.toTree := by
  rw [Tree.bindWith, Json.Value.toTree_ofTree h, Schema.Section.readLayer]

/-- A factory that always makes the same tree unbinds it. -/
theorem Factory.constant_make {t : Tree} (h : t.WellFormed) (calls : Nat) :
    (Factory.constant t).make calls = Tree.unbindWith Tree.writeDocument t := by
  rw [Tree.unbindWith_writeDocument h]
  rfl

/-! ## Transparency -/

namespace Tree

open Json

/-- **Atoms are transparent.** By way of a document, by unbinding and by binding, a tree becomes the
tree without its atoms, with the same keys in the same order. No format, no measure of its shape and
no type that is read from it tells the two apart. What comes back from a document equals the tree
exactly when it has no atom. -/
theorem atoms_transparent {t : Tree} (h : t.WellFormed) :
    (Value.ofTree t).toTree = t.erase ∧ unbindWith writeDocument t = .ok t.erase ∧
    t.bindWith readDocument = .ok t.erase ∧ t.toJson = t.erase.toJson ∧
    t.depth = t.erase.depth ∧ t.kind = t.erase.kind ∧
    (∀ {ω : Type} (s : Serializer ω), t.serialize s = t.erase.serialize s) ∧
    (∀ {α : Type} (read : Value → Except Schema.Fault α),
      t.bindWith read = t.erase.bindWith read) ∧
    ((Value.ofTree t).toTree.same t = true ↔ t.atomFree = true) := by
  have hback := Value.toTree_ofTree h
  refine ⟨hback, unbindWith_writeDocument h, ?_, ?_, (depth_erase t).symm, (kind_erase t).symm,
    fun s => (serialize_erase s t).symm, fun read => ?_, ?_⟩
  · rw [bindWith, readDocument, hback]
    rfl
  · rw [toJson_eq_serialize, toJson_eq_serialize, serialize_erase]
  · rw [bindWith, bindWith, ofTree_erase]
  · rw [hback]
    exact erase_same_iff h

/-- Stacked wrappers, and one inside another, between keys that are not in order. -/
theorem atoms_transparent_stacked :
    let t := object [("z", atom (atom (array [null, atom (text "x")]))), ("a", bool true)]
    let e := object [("z", array [null, text "x"]), ("a", bool true)]
    t.WellFormed ∧ (Value.ofTree t).toTree = e ∧ unbindWith writeDocument t = .ok e ∧
      t.bindWith readDocument = .ok e ∧ t.depth = 2 ∧ t.toJson = e.toJson ∧
      (Value.ofTree t).toTree.same t = false := by
  intro t e
  have ht : t.WellFormed := by simp [t, Fields.Distinct, Fields.keys]
  have he : t.erase = e := by decide
  obtain ⟨hback, hunbind, hbind, hjson, hdepth, -, -, -, hsame⟩ := atoms_transparent ht
  rw [he] at hback hunbind hbind hjson hdepth
  exact ⟨ht, hback, hunbind, hbind, hdepth, hjson,
    Bool.eq_false_iff.2 fun hs => absurd (hsame.1 hs) (by decide)⟩

end Tree

end ConfigOverlay
