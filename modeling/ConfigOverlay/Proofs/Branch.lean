import ConfigOverlay.Proofs.Assign
import ConfigOverlay.Proofs.Merge

/-!
# Assignments as merges

A value gets into a tree in two ways: by an assignment at a path, and by merging an overlay. They
treat what stands in the way by different rules. An assignment makes an object of it and goes on;
a merge goes on only where both trees hold objects, and copies the overlay otherwise.

**Theorem (`erase_merge_encode`).** For the overlay whose only branch ends in an atom the two
agree: merging it is assigning the content of the atom, and the keys stand in the same order. The
merge consumes the atom where it gets to the end of the branch. Where it copies the rest of the
branch the atom is copied too, so atoms are erased before the two are compared.

The induction goes along the path. An object is merged into the fields that a path finds, whatever
it meets (`mergeAt_never_object`), and a single field is merged by writing its key
(`mergedFields_singleton`). The depth limit is met only behind the last segment, where the atom is
taken as it is.
-/

namespace ConfigOverlay

theorem Fields.map_set {α β : Type} (f : α → β) (k : String) (v : α) (fs : Fields α) :
    (set k v fs).map (fun g => (g.1, f g.2)) = set k (f v) (fs.map fun g => (g.1, f g.2)) := by
  induction fs with
  | nil => rfl
  | cons g fs ih =>
    rw [set, List.map_cons, set]
    by_cases h : k = g.1
    · simp [h]
    · simp [h, ih]

namespace Tree

variable {p : Policy} {d : Nat}

/-! ## Single branches -/

@[simp] theorem encode_nil (t : Tree) : encode [] t = t := rfl

theorem encode_cons (k : String) (path : KeyPath) (t : Tree) :
    encode (k :: path) t = object [(k, encode path t)] := rfl

@[simp] theorem erase_encode (path : KeyPath) (t : Tree) :
    (encode path t).erase = encode path t.erase := by
  induction path with
  | nil => rfl
  | cons k path ih => simp [encode_cons, ih]

/-! ## Merging them -/

theorem mergeAt_never_object {a : Tree} {gs : Fields Tree} {d : Nat} (ha : a.atomFree = true)
    (hd : d < maxDepth) :
    mergeAt .never d a (object gs) = object (mergedFields .never (d + 1) a.fieldsOrEmpty gs) := by
  by_cases h : ∃ fs, a = object fs
  · obtain ⟨fs, rfl⟩ := h
    exact mergeAt_object (.object hd rfl)
  · have hn : ∀ fs, a ≠ object fs := fun fs hfs => h ⟨fs, hfs⟩
    have hl : ¬ LooksInside .never d a (object gs) := by
      intro hl
      cases hl
      exact hn _ rfl
    rw [mergeAt_of_not_looksInside hl, fieldsOrEmpty_eq_nil ha hn]
    simp [mergedFields, mergeFields, Tree.unwrap, Fields.has]

/-- **Merging a single field writes its key**: in place when the key is there, at the end
otherwise. -/
theorem mergedFields_singleton {fs : Fields Tree} (hd : fs.Distinct) (k : String) (y : Tree) :
    mergedFields p d fs [(k, y)] =
      Fields.set k ((Fields.get? k fs).elim y fun x => mergeAt p d x y) fs := by
  have hmerged : (mergedFields p d fs [(k, y)]).Distinct :=
    distinct_mergedFields hd (by simp [Fields.Distinct, Fields.keys])
  refine Fields.eq_of_keys_eq hmerged ?_ fun f hf => ?_
  · rw [keys_mergedFields, Fields.keys_set]
    show fs.keys ++ [k].filter (· ∉ fs.keys) = _
    by_cases hk : k ∈ fs.keys <;> simp [hk]
  · rw [← hmerged.get?_of_mem hf, get?_mergedFields, Fields.get?_set, Fields.get?_cons,
      Fields.get?_nil]
    by_cases hk : f.1 = k
    · rw [if_pos hk, if_pos hk, hk]
      cases Fields.get? k fs <;> rfl
    · rw [if_neg hk, if_neg hk]
      cases Fields.get? f.1 fs <;> rfl

/-- Merging a branch that ends in an atom, at every depth that leaves room for its path. -/
theorem erase_mergeAt_encode {base v : Tree} (hb : base.Plain) (hv : v.atomFree = true)
    {path : KeyPath} (hd : d + path.length ≤ maxDepth) :
    (mergeAt .never d base (encode path v.asAtom)).erase = assign path v base := by
  induction path generalizing base d with
  | nil =>
    rw [encode_nil, mergeAt_of_isAtom (isAtom_asAtom v), unwrap_asAtom, erase_unwrap,
      erase_of_atomFree hv, assign_nil]
  | cons k path ih =>
    rw [List.length_cons] at hd
    obtain ⟨hdist, hfields⟩ := hereditary_plain.fieldsOrEmpty hb
    have hsame : base.fieldsOrEmpty.map (fun f => (f.1, f.2.erase)) = base.fieldsOrEmpty := by
      have h := erase_of_atomFree (plain_object.2 ⟨hdist, hfields⟩).atomFree
      rwa [erase_object, object.injEq] at h
    rw [encode_cons, mergeAt_never_object hb.atomFree (by omega), mergedFields_singleton hdist,
      erase_object, Fields.map_set, hsame, assign_cons]
    congr 2
    rw [child]
    cases hx : Fields.get? k base.fieldsOrEmpty with
    | none =>
      -- The merge copies the rest of the branch, and the assignment writes it over nothing.
      show (encode path v.asAtom).erase = assign path v null
      rw [erase_encode, erase_asAtom, erase_of_atomFree hv, assign_eq_encode rfl]
    | some x =>
      have hx : x.Plain := hfields _ (Fields.mem_of_get? hx)
      exact ih hx (by omega)

/-- **An assignment is a merge of a branch that ends in an atom**, for paths of at most `maxDepth`
segments: up to the atoms that are left where the merge copies the branch, the two give the same
tree with the same order of keys. -/
theorem erase_merge_encode {base v : Tree} (hb : base.Plain) (hv : v.atomFree = true)
    {path : KeyPath} (hpath : path.length ≤ maxDepth) :
    (base.merge (encode path v.asAtom)).erase = assign path v base :=
  erase_mergeAt_encode hb hv (by rwa [Nat.zero_add])

/-- The path goes through an object with other keys and meets an array. -/
theorem erase_merge_encode_through_array :
    let base := object [("server", object [("tls", array [null]), ("port", null)]), ("log", null)]
    let v := object [("file", text "a.pem")]
    let path := ["server", "tls", "cert"]
    base.Plain ∧ v.atomFree = true ∧ path.length ≤ maxDepth ∧
      base.merge (encode path v.asAtom) = object [("server", object
        [("tls", object [("cert", atom v)]), ("port", null)]), ("log", null)] ∧
      assign path v base = object [("server", object
        [("tls", object [("cert", v)]), ("port", null)]), ("log", null)] := by
  intro base v path
  have hb : base.Plain := ⟨by simp [base, Fields.Distinct, Fields.keys], by decide⟩
  have hv : v.atomFree = true := by decide
  have hpath : path.length ≤ maxDepth := by decide
  have hm : base.merge (encode path v.asAtom) = object [("server", object
      [("tls", object [("cert", atom v)]), ("port", null)]), ("log", null)] := by decide
  refine ⟨hb, hv, hpath, hm, ?_⟩
  rw [← erase_merge_encode hb hv hpath, hm]
  decide

end Tree

end ConfigOverlay
