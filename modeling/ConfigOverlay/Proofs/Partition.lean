import ConfigOverlay.Proofs.Minimal
import ConfigOverlay.Proofs.Render

/-!
# Taking apart and assigning undo each other

Assignments at paths of which none leads to another may be made in any order
(`Apart.assignAll_perm_same`), and the leaves of an object stand at such paths.

**Theorem (`decode_partitions`).** Taking an object apart gives leaves at written paths, each of
them what the object has at its path; written into the empty object, in whatever order, they give
the object back, but for the wrappers around them.

**Theorem (`decode_assignAll_perm`).** Conversely, leaves assigned at paths of which none leads to
another are what is found when the tree is taken apart, in some order. An assignment goes down
through objects that are taken apart, since no leaf stands on its way, and adds one leaf to those
of the tree (`perm_fieldBranches_assign`).
-/

namespace ConfigOverlay

namespace Tree

variable {es es' : List (KeyPath × Tree)} {fs : Fields Tree} {path : KeyPath} {v : Tree}

/-! ## The order of assignments -/

theorem assignAll_same (hes : ∀ e ∈ es, e.2.WellFormed) {a b : Tree} (ha : a.WellFormed)
    (hb : b.WellFormed) (h : a.same b = true) :
    (assignAll es a).same (assignAll es b) = true := by
  induction es generalizing a b with
  | nil => exact h
  | cons e es ih =>
    rw [List.forall_mem_cons] at hes
    exact ih hes.2 (hereditary_wellFormed.assign hes.1 ha e.1)
      (hereditary_wellFormed.assign hes.1 hb e.1) (assign_same ha hb (same_refl hes.1) h e.1)

/-- **Assignments apart from each other may be made in any order.** -/
theorem Apart.assignAll_perm_same (h : Apart es) (hp : es.Perm es')
    (hes : ∀ e ∈ es, e.2.WellFormed) {base : Tree} (hb : base.WellFormed) :
    (assignAll es base).same (assignAll es' base) = true := by
  induction hp generalizing base with
  | nil => exact same_refl hb
  | cons e _ ih =>
    rw [List.forall_mem_cons] at hes
    exact ih (List.pairwise_cons.1 h).2 hes.2 (hereditary_wellFormed.assign hes.1 hb e.1)
  | swap e e' es =>
    simp only [List.forall_mem_cons] at hes
    obtain ⟨he', he, hes⟩ := hes
    have hinc : e.1.Incomparable e'.1 := ((List.pairwise_cons.1 h).1 e (by simp)).symm
    have hone := hereditary_wellFormed.assign he' hb e'.1
    have hother := hereditary_wellFormed.assign he hb e.1
    exact assignAll_same hes (hereditary_wellFormed.assign he hone e.1)
      (hereditary_wellFormed.assign he' hother e'.1) (assign_comm hinc he he' hb)
  | trans hp hp' ih ih' =>
    have h' : Apart _ := (hp.pairwise_iff fun h => h.symm).1 h
    have hes' := fun e he => hes e (hp.mem_iff.2 he)
    exact same_trans (hereditary_wellFormed.assignAll hb hes)
      (hereditary_wellFormed.assignAll hb hes')
      (hereditary_wellFormed.assignAll hb fun e he => hes' e (hp'.mem_iff.2 he))
      (ih h hes hb) (ih' h' hes' hb)

/-! ## Leaves at their paths -/

theorem getPath?_of_mem_fieldBranches (hd : fs.Distinct)
    (h : ∀ f ∈ fs, ∀ e ∈ branches f.2, ∃ u, getPath? e.1 f.2 = some u ∧ e.2 = u.unwrap) :
    ∀ e ∈ fieldBranches fs, ∃ u, getPath? e.1 (object fs) = some u ∧ e.2 = u.unwrap := by
  rw [forall_mem_fieldBranches]
  intro f hf e he
  obtain ⟨u, hu, hleaf⟩ := h f hf e he
  refine ⟨u, ?_, hleaf⟩
  rw [getPath?, get?, hd.get?_of_mem hf, Option.bind_some, hu]

theorem getPath?_of_mem_branches {t : Tree} (ht : t.WellFormed) :
    ∀ e ∈ branches t, ∃ u, getPath? e.1 t = some u ∧ e.2 = u.unwrap := by
  induction t with
  | object fs ih =>
    obtain ⟨hd, hf⟩ := wellFormed_object.1 ht
    cases hs : (Tree.object fs).splits with
    | false => simp [branches_of_not_splits hs, getPath?]
    | true =>
      rw [branches_of_splits hs]
      exact getPath?_of_mem_fieldBranches hd fun f hfm => ih f.1 f.2 hfm (hf f hfm)
  | _ => simp [branches, splits, getPath?]

/-- **Taking an object apart** gives leaves at paths that lead somewhere, can be written, and do not
lead to each other. Each leaf is what the object has at its path, without the wrappers around it.
Written into the empty object they give the object without exactly these wrappers, with its keys in
order, and in any other order of writing an equal tree. -/
theorem decode_partitions (hw : (object fs).WellFormed)
    (hk : ∀ k ∈ fs.keys, isAddressable k = true) :
    (∀ e ∈ decode (object fs), e.1 ≠ [] ∧ ∀ k ∈ e.1, isAddressable k = true) ∧
    (decode (object fs)).Pairwise (fun e e' => ¬ e.1 <+: e'.1 ∧ ¬ e'.1 <+: e.1) ∧
    (∀ e ∈ decode (object fs), ∃ u, getPath? e.1 (object fs) = some u ∧ e.2 = u.unwrap) ∧
    assignAll (decode (object fs)) .empty = (object fs).unwrapLeaves ∧
    ∀ es, es.Perm (decode (object fs)) →
      (assignAll es .empty).same (object fs).unwrapLeaves = true := by
  obtain ⟨hd, hf⟩ := wellFormed_object.1 hw
  have hapart : Apart (decode (object fs)) := apart_decode hw hk
  have hleaves := assignAll_decode_eq_unwrapLeaves hw hk
  refine ⟨path_of_mem_decode hk, hapart, ?_, hleaves, fun es hp => ?_⟩
  · rw [decode_object hk]
    exact getPath?_of_mem_fieldBranches hd fun f hfm => getPath?_of_mem_branches (hf f hfm)
  · have hwell : ∀ e ∈ decode (object fs), e.2.WellFormed := fun e he =>
      (forall_mem_decode (fun h => (wellFormed_object.1 h).2) hereditary_wellFormed.unwrap hk hw e
        he).2
    have hes : Apart es := (hp.pairwise_iff fun h => h.symm).2 hapart
    have hsame := hes.assignAll_perm_same hp (fun e he => hwell e (hp.mem_iff.1 he))
      plain_empty.wellFormed
    rwa [hleaves] at hsame

/-- Wrappers around leaves at several depths, one of them twice; the wrapper inside an object with a
key that cannot be written stays. -/
theorem decode_partitions_wrapped :
    let whole := object [("x.y", atom null)]
    let fs := [("a", object [("b", atom (atom whole)), ("c", object [])]), ("d", atom (bool true))]
    let leaves := [(["a", "b"], whole), (["a", "c"], object []), (["d"], bool true)]
    let bare := object [("a", object [("b", whole), ("c", object [])]), ("d", bool true)]
    (object fs).WellFormed ∧ (∀ k ∈ Fields.keys fs, isAddressable k = true) ∧
      decode (object fs) = leaves ∧
      (∃ u, getPath? ["a", "b"] (object fs) = some u ∧ whole = u.unwrap) ∧
      (assignAll leaves.reverse .empty).same bare = true := by
  intro whole fs leaves bare
  have hw : (object fs).WellFormed := by simp [fs, whole, Fields.Distinct, Fields.keys]
  have hk : ∀ k ∈ Fields.keys fs, isAddressable k = true := by decide
  have hd : decode (object fs) = leaves := by decide
  have hbare : (object fs).unwrapLeaves = bare := by decide
  obtain ⟨-, -, hget, -, hperm⟩ := decode_partitions hw hk
  rw [hd] at hget hperm
  exact ⟨hw, hk, hd, hget (["a", "b"], whole) (by simp [leaves]),
    hbare ▸ hperm leaves.reverse (List.reverse_perm leaves)⟩

/-! ## Leaves that are assigned -/

/-- A tree that is a leaf wherever it is assigned. -/
structure IsLeaf (t : Tree) : Prop where
  isAtom : t.isAtom = false
  splits : t.splits = false

theorem branches_encode (hpath : path.Addressable) (hv : v.IsLeaf) :
    branches (encode path v) = [(path, v)] := by
  induction path with
  | nil => rw [encode, List.foldr_nil, branches_of_not_splits hv.splits, unwrap_of_isAtom hv.isAtom]
  | cons k path ih =>
    obtain ⟨hk, hpath⟩ := List.forall_mem_cons.1 hpath
    have hs : (object [(k, encode path v)]).splits = true :=
      splits_object.2 ⟨by simp, by simpa [Fields.keys] using hk⟩
    show branches (object [(k, encode path v)]) = _
    rw [branches_of_splits hs, fieldBranches_cons, ih hpath]
    rfl

theorem splits_set {k : String} (hk : isAddressable k = true)
    (h : ∀ l ∈ fs.keys, isAddressable l = true) (w : Tree) :
    (object (Fields.set k w fs)).splits = true := by
  refine splits_object.2 ⟨?_, ?_⟩
  · intro hnil
    have hget := Fields.get?_set_self k w fs
    rw [hnil] at hget
    cases hget
  · intro l hl
    rw [Fields.keys_set] at hl
    split_ifs at hl
    · exact h l hl
    · rcases List.mem_append.1 hl with hl | hl
      · exact h l hl
      · rwa [List.mem_singleton.1 hl]

theorem fieldBranches_assign_new {k : String} (hpath : path.Addressable) (hv : v.IsLeaf)
    (hx : Fields.get? k fs = none) :
    fieldBranches (Fields.set k (assign path v (child k (object fs))) fs) =
      fieldBranches fs ++ [(k :: path, v)] := by
  have hchild : child k (object fs) = null := by rw [child, fieldsOrEmpty_object, hx]; rfl
  rw [Fields.set_of_not_mem (Fields.get?_eq_none.1 hx), hchild, assign_eq_encode rfl,
    fieldBranches_append, fieldBranches_cons, branches_encode hpath hv]
  rfl

theorem perm_fieldBranches_set {k : String} {x w : Tree} {e : KeyPath × Tree}
    (hx : Fields.get? k fs = some x) (h : (branches w).Perm (e :: branches x)) :
    (fieldBranches (Fields.set k w fs)).Perm ((k :: e.1, e.2) :: fieldBranches fs) := by
  obtain ⟨before, after, rfl, hset⟩ := Fields.exists_append_of_get? hx
  rw [hset, fieldBranches_append, fieldBranches_append, fieldBranches_cons, fieldBranches_cons]
  have hbehind := ((h.map fun e => (k :: e.1, e.2)).append_right (fieldBranches after)).append_left
    (fieldBranches before)
  exact hbehind.trans List.perm_middle

/-- **An assignment adds its leaf** to those of an object, when its path and theirs do not lead to
each other. -/
theorem perm_fieldBranches_assign {k : String} (hpath : path.Addressable) (hv : v.IsLeaf)
    (h : ∀ e ∈ fieldBranches fs, KeyPath.Incomparable (k :: path) e.1) :
    (fieldBranches (Fields.set k (assign path v (child k (object fs))) fs)).Perm
      ((k :: path, v) :: fieldBranches fs) := by
  induction path generalizing k fs with
  | nil =>
    cases hx : Fields.get? k fs with
    | none =>
      rw [fieldBranches_assign_new hpath hv hx]
      exact List.perm_append_singleton _ _
    | some x =>
      -- Every branch of the value is below the path.
      obtain ⟨e, he⟩ := List.exists_mem_of_ne_nil _ (branches_ne_nil x)
      have hinc := (forall_mem_fieldBranches.1 h (k, x) (Fields.mem_of_get? hx) e he).tail
      exact absurd hinc (KeyPath.not_incomparable_nil e.1)
  | cons l path ih =>
    obtain ⟨hl, hpath'⟩ := List.forall_mem_cons.1 hpath
    cases hx : Fields.get? k fs with
    | none =>
      rw [fieldBranches_assign_new hpath hv hx]
      exact List.perm_append_singleton _ _
    | some x =>
      have hinc : ∀ e ∈ branches x, KeyPath.Incomparable (l :: path) e.1 := fun e he =>
        (forall_mem_fieldBranches.1 h (k, x) (Fields.mem_of_get? hx) e he).tail
      have hs : x.splits = true := by
        by_contra hs
        rw [Bool.not_eq_true] at hs
        -- The value would be a leaf on the way of the path.
        have hleaf := hinc ([], x.unwrap) (by simp [branches_of_not_splits hs])
        exact KeyPath.not_incomparable_nil _ hleaf.symm
      obtain ⟨gs, rfl⟩ := exists_object_of_splits hs
      have hchild : child k (object fs) = object gs := by
        rw [child, fieldsOrEmpty_object, hx]
        rfl
      rw [branches_of_splits hs] at hinc
      refine perm_fieldBranches_set (e := (l :: path, v)) hx ?_
      rw [hchild, assign_cons, fieldsOrEmpty_object,
        branches_of_splits (splits_set hl (splits_object.1 hs).2 _), branches_of_splits hs]
      exact ih hpath' hinc

@[simp] theorem decode_empty : decode .empty = [] := rfl

/-- Assignments apart from each other and from the leaves of an object add their leaves. -/
theorem perm_decode_assignAll (hes : ∀ e ∈ es, (e.1 ≠ [] ∧ KeyPath.Addressable e.1) ∧ e.2.IsLeaf)
    (ha : Apart es) (hk : ∀ k ∈ fs.keys, isAddressable k = true)
    (h : ∀ e ∈ es, ∀ e' ∈ decode (object fs), e.1.Incomparable e'.1) :
    (decode (assignAll es (object fs))).Perm (es ++ decode (object fs)) := by
  induction es generalizing fs with
  | nil => exact .refl _
  | cons e es ih =>
    obtain ⟨path, v⟩ := e
    rw [List.forall_mem_cons] at hes h
    obtain ⟨⟨⟨hne, hpath⟩, hv⟩, hes⟩ := hes
    obtain ⟨hapart, hrestApart⟩ := List.pairwise_cons.1 ha
    obtain ⟨k, path, rfl⟩ := List.exists_cons_of_ne_nil hne
    obtain ⟨hka, hpath⟩ := List.forall_mem_cons.1 hpath
    have hk' := (splits_object.1 (splits_set hka hk (assign path v (child k (object fs))))).2
    have hstep : (decode (assign (k :: path) v (object fs))).Perm
        ((k :: path, v) :: decode (object fs)) := by
      rw [assign_cons, fieldsOrEmpty_object, decode_object hk', decode_object hk]
      exact perm_fieldBranches_assign hpath hv (by rw [← decode_object hk]; exact h.1)
    have hrest := ih hes hrestApart hk' fun e he e' he' => by
      rcases List.mem_cons.1 (hstep.mem_iff.1 he') with rfl | he'
      · exact (hapart e he).symm
      · exact h.2 e he e' he'
    exact hrest.trans ((hstep.append_left es).trans List.perm_middle)

/-- **Taking apart undoes assigning.** Leaves that are assigned at paths of which none leads to
another are the leaves of the tree, each at its path, and no others; a single one is the only leaf
of its branch. -/
theorem decode_assignAll_perm (hpaths : ∀ e ∈ es, e.1 ≠ [] ∧ ∀ k ∈ e.1, isAddressable k = true)
    (hapart : es.Pairwise fun e e' => ¬ e.1 <+: e'.1 ∧ ¬ e'.1 <+: e.1)
    (hleaves : ∀ e ∈ es, e.2.isAtom = false ∧
      ∀ fs : Fields Tree, e.2 = object fs → fs = [] ∨ ∃ k ∈ fs.keys, isAddressable k = false) :
    (decode (assignAll es .empty)).Perm es ∧
    ∀ path leaf, es = [(path, leaf)] → decode (encode path leaf) = [(path, leaf)] := by
  have hleaf : ∀ e ∈ es, e.2.IsLeaf := by
    intro e he
    obtain ⟨hatom, hobject⟩ := hleaves e he
    refine ⟨hatom, ?_⟩
    by_contra hs
    rw [Bool.not_eq_false] at hs
    obtain ⟨fs, hfs⟩ := exists_object_of_splits hs
    rw [hfs] at hs
    obtain ⟨hne, hk⟩ := splits_object.1 hs
    rcases hobject fs hfs with rfl | ⟨k, hmem, hka⟩
    · exact hne rfl
    · simp [hk k hmem] at hka
  have hperm : (decode (assignAll es .empty)).Perm es := by
    have hrun : (decode (assignAll es .empty)).Perm (es ++ decode .empty) :=
      perm_decode_assignAll (fun e he => ⟨hpaths e he, hleaf e he⟩) hapart (by simp [Fields.keys])
        fun e _ e' he' => absurd he' (by rw [← empty, decode_empty]; simp)
    rwa [decode_empty, List.append_nil] at hrun
  refine ⟨hperm, ?_⟩
  rintro path leaf rfl
  rw [assignAll_cons, assignAll_nil, assign_eq_encode rfl] at hperm
  exact List.perm_singleton.1 hperm

/-- Leaves that arrive interleaved and are found in groups. -/
theorem decode_assignAll_perm_interleaved :
    let es : List (KeyPath × Tree) := [(["a", "b"], null), (["c"], object []),
      (["a", "d", "e"], object [("x.y", atom null)]), (["a", "d", "f"], array [object []])]
    (∀ e ∈ es, e.1 ≠ [] ∧ ∀ k ∈ e.1, isAddressable k = true) ∧
      es.Pairwise (fun e e' => ¬ e.1 <+: e'.1 ∧ ¬ e'.1 <+: e.1) ∧
      (∀ e ∈ es, e.2.isAtom = false ∧
        ∀ fs : Fields Tree, e.2 = object fs → fs = [] ∨ ∃ k ∈ fs.keys, isAddressable k = false) ∧
      (decode (assignAll es .empty)).Perm es ∧ decode (assignAll es .empty) ≠ es := by
  intro es
  have hpaths : ∀ e ∈ es, e.1 ≠ [] ∧ ∀ k ∈ e.1, isAddressable k = true := by decide
  have hapart : es.Pairwise fun e e' => ¬ e.1 <+: e'.1 ∧ ¬ e'.1 <+: e.1 := by decide
  have hleaves : ∀ e ∈ es, e.2.isAtom = false ∧
      ∀ fs : Fields Tree, e.2 = object fs → fs = [] ∨ ∃ k ∈ fs.keys, isAddressable k = false := by
    simp [es, isAtom, Fields.keys, isAddressable]
  exact ⟨hpaths, hapart, hleaves, (decode_assignAll_perm hpaths hapart hleaves).1, by decide⟩

end Tree

end ConfigOverlay
