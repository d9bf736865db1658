import ConfigOverlay.Proofs.Fields
import ConfigOverlay.Tree.Same

/-!
# Trees by structure

The functions on trees walk items and fields by mutual recursion. Here each of them is restated
over members and keys, so that later proofs go by `induction t`, with one hypothesis for every
item and every field, and never meet the walk.

**Equality.** `Tree.same` compares arrays item by item and objects key by key
(`same_array`, `same_object`), and so it is an equivalence on well-formed trees (`same_refl`,
`same_symm`, `same_trans`).
-/

namespace ConfigOverlay

namespace Number

/-! ## Equality of numbers -/

theorem same_refl (n : Number) : n.same n = true := by
  cases n <;> simp [Number.same, Binary64.same]

theorem same_symm {m n : Number} (h : m.same n = true) : n.same m = true := by
  cases m <;> cases n <;> simp only [Number.same, Binary64.same, beq_iff_eq, Bool.or_eq_true,
    Bool.and_eq_true, Bool.false_eq_true] at h ⊢
  · exact h.symm
  · exact h.imp Eq.symm And.symm

theorem same_trans {l m n : Number} (h : l.same m = true) (h' : m.same n = true) :
    l.same n = true := by
  cases l <;> cases m <;> cases n <;> simp only [Number.same, Binary64.same, beq_iff_eq,
    Bool.or_eq_true, Bool.and_eq_true, Bool.false_eq_true] at h h' ⊢
  · exact h.trans h'
  · rcases h with rfl | ⟨hl, hm⟩
    · exact h'
    · rcases h' with rfl | ⟨-, hn⟩
      · exact .inr ⟨hl, hm⟩
      · exact .inr ⟨hl, hn⟩

end Number

namespace Tree

/-! ## Induction -/

/-- Structural induction with a hypothesis for every item and every field. -/
@[elab_as_elim, induction_eliminator]
theorem structural {motive : Tree → Prop} (null : motive .null) (bool : ∀ b, motive (.bool b))
    (number : ∀ n, motive (.number n)) (text : ∀ s, motive (.text s))
    (array : ∀ xs, (∀ x ∈ xs, motive x) → motive (.array xs))
    (object : ∀ fs, (∀ k x, (k, x) ∈ fs → motive x) → motive (.object fs))
    (atom : ∀ t, motive t → motive (.atom t)) (t : Tree) : motive t := by
  cases t with
  | null => exact null
  | bool b => exact bool b
  | number n => exact number n
  | text s => exact text s
  | array xs =>
    exact array xs fun x _ => structural null bool number text array object atom x
  | object fs =>
    exact object fs fun _ x _ => structural null bool number text array object atom x
  | atom t => exact atom t (structural null bool number text array object atom t)
termination_by t
decreasing_by
  · rename_i h
    have := List.sizeOf_lt_of_mem h
    simp only [Tree.array.sizeOf_spec]
    omega
  · rename_i h
    have := List.sizeOf_lt_of_mem h
    simp only [Tree.object.sizeOf_spec, Prod.mk.sizeOf_spec] at this ⊢
    omega
  · simp only [Tree.atom.sizeOf_spec]
    omega

/-! ## Well-formed and atom-free trees -/

@[simp] theorem atomFree_array {xs : List Tree} :
    (array xs).atomFree = true ↔ ∀ x ∈ xs, x.atomFree = true := by
  rw [atomFree]
  induction xs with
  | nil => simp [atomFreeItems]
  | cons x xs ih => simp [atomFreeItems, ih]

@[simp] theorem atomFree_object {fs : Fields Tree} :
    (object fs).atomFree = true ↔ ∀ f ∈ fs, f.2.atomFree = true := by
  rw [atomFree]
  induction fs with
  | nil => simp [atomFreeFields]
  | cons f fs ih => simp [atomFreeFields, ih]

@[simp] theorem atomFree_atom (t : Tree) : (atom t).atomFree = false := rfl

@[simp] theorem wellFormed_array {xs : List Tree} :
    (array xs).WellFormed ↔ ∀ x ∈ xs, x.WellFormed := by
  rw [WellFormed]
  induction xs with
  | nil => simp [WellFormedItems]
  | cons x xs ih => simp [WellFormedItems, ih]

@[simp] theorem wellFormed_object {fs : Fields Tree} :
    (object fs).WellFormed ↔ fs.Distinct ∧ ∀ f ∈ fs, f.2.WellFormed := by
  rw [WellFormed]
  refine and_congr_right' ?_
  induction fs with
  | nil => simp [WellFormedFields]
  | cons f fs ih => rw [WellFormedFields, ih, List.forall_mem_cons]

@[simp] theorem wellFormed_atom {t : Tree} : (atom t).WellFormed ↔ t.WellFormed := by
  rw [WellFormed]

@[simp] theorem wellFormed_null : null.WellFormed := by simp [WellFormed]

@[simp] theorem wellFormed_bool (b : Bool) : (bool b).WellFormed := by simp [WellFormed]

@[simp] theorem wellFormed_number (n : Number) : (number n).WellFormed := by simp [WellFormed]

@[simp] theorem wellFormed_text (s : String) : (text s).WellFormed := by simp [WellFormed]

/-- What a document or the value of a factory can be: no repeated keys and no atoms. -/
structure Plain (t : Tree) : Prop where
  wellFormed : t.WellFormed
  atomFree : t.atomFree = true

theorem plain_array {xs : List Tree} : (array xs).Plain ↔ ∀ x ∈ xs, x.Plain := by
  constructor
  · rintro ⟨hw, ha⟩ x hx
    exact ⟨wellFormed_array.1 hw x hx, atomFree_array.1 ha x hx⟩
  · intro h
    exact ⟨wellFormed_array.2 fun x hx => (h x hx).1, atomFree_array.2 fun x hx => (h x hx).2⟩

theorem plain_object {fs : Fields Tree} :
    (object fs).Plain ↔ fs.Distinct ∧ ∀ f ∈ fs, f.2.Plain := by
  constructor
  · rintro ⟨hw, ha⟩
    obtain ⟨hd, hw⟩ := wellFormed_object.1 hw
    exact ⟨hd, fun f hf => ⟨hw f hf, atomFree_object.1 ha f hf⟩⟩
  · rintro ⟨hd, h⟩
    exact ⟨wellFormed_object.2 ⟨hd, fun f hf => (h f hf).1⟩,
      atomFree_object.2 fun f hf => (h f hf).2⟩

theorem plain_null : null.Plain := ⟨wellFormed_null, rfl⟩

theorem plain_empty : empty.Plain := plain_object.2 ⟨List.nodup_nil, by simp⟩

theorem plain_bool (b : Bool) : (bool b).Plain := ⟨wellFormed_bool b, rfl⟩

theorem plain_number (n : Number) : (number n).Plain := ⟨wellFormed_number n, rfl⟩

theorem plain_text (s : String) : (text s).Plain := ⟨wellFormed_text s, rfl⟩

theorem not_plain_atom (t : Tree) : ¬ (atom t).Plain := fun h => by simpa using h.atomFree

/-! ## Erasing and unwrapping atoms -/

@[simp] theorem erase_array (xs : List Tree) : (array xs).erase = array (xs.map erase) := by
  rw [erase]
  congr 1
  induction xs with
  | nil => rfl
  | cons x xs ih => rw [eraseItems, ih, List.map_cons]

@[simp] theorem erase_object (fs : Fields Tree) :
    (object fs).erase = object (fs.map fun f => (f.1, f.2.erase)) := by
  rw [erase]
  congr 1
  induction fs with
  | nil => rfl
  | cons f fs ih => rw [eraseFields, ih, List.map_cons]

@[simp] theorem erase_atom (t : Tree) : (atom t).erase = t.erase := by rw [erase]

theorem erase_of_atomFree {t : Tree} (h : t.atomFree = true) : t.erase = t := by
  induction t with
  | array xs ih =>
    rw [erase_array, List.map_congr_left fun x hx => ih x hx (atomFree_array.1 h x hx)]
    simp
  | object fs ih =>
    have hfs : fs.map (fun f => (f.1, f.2.erase)) = fs.map id :=
      List.map_congr_left fun f hf => by
        rw [ih f.1 f.2 hf (atomFree_object.1 h f hf), id]
    rw [erase_object, hfs, List.map_id]
  | atom t ih => simp at h
  | _ => simp [erase]

theorem WellFormed.erase {t : Tree} (h : t.WellFormed) : t.erase.WellFormed := by
  induction t with
  | array xs ih =>
    rw [wellFormed_array] at h
    simpa using fun x hx => ih x hx (h x hx)
  | object fs ih =>
    obtain ⟨hd, hf⟩ := wellFormed_object.1 h
    rw [erase_object, wellFormed_object, Fields.Distinct, Fields.keys_map fun _ => Tree.erase]
    refine ⟨hd, fun f hfm => ?_⟩
    obtain ⟨g, hg, rfl⟩ := List.mem_map.1 hfm
    exact ih g.1 g.2 hg (hf g hg)
  | atom t ih =>
    rw [erase_atom]
    exact ih (wellFormed_atom.1 h)
  | _ => exact h

theorem atomFree_erase (t : Tree) : t.erase.atomFree = true := by
  induction t with
  | array xs ih => simpa using ih
  | object fs ih =>
    rw [erase_object, atomFree_object, List.forall_mem_map]
    exact fun f hf => ih f.1 f.2 hf
  | atom t ih => rwa [erase_atom]
  | _ => rfl

theorem WellFormed.plain_erase {t : Tree} (h : t.WellFormed) : t.erase.Plain :=
  ⟨h.erase, atomFree_erase t⟩

@[simp] theorem erase_unwrap (t : Tree) : t.unwrap.erase = t.erase := by
  induction t with
  | atom t ih => rw [unwrap, ih, erase_atom]
  | _ => rfl

theorem unwrap_of_isAtom {t : Tree} (h : t.isAtom = false) : t.unwrap = t := by
  cases t <;> simp_all [isAtom, unwrap]

theorem isAtom_of_atomFree {t : Tree} (h : t.atomFree = true) : t.isAtom = false := by
  cases t <;> simp_all [isAtom]

theorem unwrap_of_atomFree {t : Tree} (h : t.atomFree = true) : t.unwrap = t :=
  unwrap_of_isAtom (isAtom_of_atomFree h)

@[simp] theorem isAtom_asAtom (t : Tree) : t.asAtom.isAtom = true := by
  cases t <;> rfl

theorem asAtom_of_isAtom {t : Tree} (h : t.isAtom = false) : t.asAtom = atom t := by
  cases t <;> simp_all [isAtom, asAtom]

@[simp] theorem unwrap_asAtom (t : Tree) : t.asAtom.unwrap = t.unwrap := by
  cases t <;> simp [asAtom, Tree.unwrap]

@[simp] theorem erase_asAtom (t : Tree) : t.asAtom.erase = t.erase := by
  cases t <;> simp [asAtom]

/-! ## Depth -/

theorem depth_array_le {xs : List Tree} {n : Nat} :
    (array xs).depth ≤ n + 1 ↔ ∀ x ∈ xs, x.depth ≤ n := by
  rw [depth, Nat.add_le_add_iff_right]
  induction xs with
  | nil => simp [depthItems]
  | cons x xs ih => rw [depthItems, Nat.max_le, ih, List.forall_mem_cons]

theorem depth_object_le {fs : Fields Tree} {n : Nat} :
    (object fs).depth ≤ n + 1 ↔ ∀ f ∈ fs, f.2.depth ≤ n := by
  rw [depth, Nat.add_le_add_iff_right]
  induction fs with
  | nil => simp [depthFields]
  | cons f fs ih => rw [depthFields, Nat.max_le, ih, List.forall_mem_cons]

theorem depth_lt_of_mem_array {xs : List Tree} {x : Tree} (h : x ∈ xs) :
    x.depth < (array xs).depth := by
  have hd : (array xs).depth = depthItems xs + 1 := by rw [depth]
  have hx := depth_array_le.1 (Nat.le_of_eq hd) x h
  omega

theorem depth_lt_of_mem_object {fs : Fields Tree} {k : String} {x : Tree} (h : (k, x) ∈ fs) :
    x.depth < (object fs).depth := by
  have hd : (object fs).depth = depthFields fs + 1 := by rw [depth]
  have hx : x.depth ≤ depthFields fs := depth_object_le.1 (Nat.le_of_eq hd) (k, x) h
  omega

@[simp] theorem depth_atom (t : Tree) : (atom t).depth = t.depth := by rw [depth]

theorem depth_unwrap (t : Tree) : t.unwrap.depth = t.depth := by
  induction t with
  | atom t ih => rw [unwrap, ih, depth_atom]
  | _ => rfl

theorem depth_erase (t : Tree) : t.erase.depth = t.depth := by
  induction t with
  | array xs ih =>
    rw [erase_array, depth, depth]
    congr 1
    induction xs with
    | nil => rfl
    | cons x xs ihs =>
      rw [List.map_cons, depthItems, depthItems, ih x (by simp),
        ihs fun y hy => ih y (by simp [hy])]
  | object fs ih =>
    rw [erase_object, depth, depth]
    congr 1
    induction fs with
    | nil => rfl
    | cons f fs ihs =>
      rw [List.map_cons, depthFields, depthFields, ih f.1 f.2 (by simp),
        ihs fun k y hy => ih k y (by simp [hy])]
  | atom t ih => rw [erase_atom, ih, depth_atom]
  | _ => rfl

/-! ## Hereditary properties -/

/-- A property of trees without repeated keys that is settled item by item and field by field, and
that passes from a wrapper to its content. -/
structure Hereditary (P : Tree → Prop) : Prop where
  null : P null
  array : ∀ xs, P (array xs) ↔ ∀ x ∈ xs, P x
  object : ∀ fs : Fields Tree, P (object fs) ↔ fs.Distinct ∧ ∀ f ∈ fs, P f.2
  content : ∀ t, P (atom t) → P t

theorem hereditary_wellFormed : Hereditary WellFormed where
  null := wellFormed_null
  array _ := wellFormed_array
  object _ := wellFormed_object
  content _ := wellFormed_atom.1

theorem hereditary_plain : Hereditary Plain where
  null := plain_null
  array _ := plain_array
  object _ := plain_object
  content t h := absurd h (not_plain_atom t)

theorem Hereditary.unwrap {P : Tree → Prop} (hP : Hereditary P) {t : Tree} (h : P t) :
    P t.unwrap := by
  induction t with
  | atom t ih =>
    rw [Tree.unwrap]
    exact ih (hP.content t h)
  | _ => exact h

theorem Hereditary.of_get? {P : Tree → Prop} (hP : Hereditary P) {fs : Fields Tree}
    (h : P (Tree.object fs)) {k : String} {x : Tree} (hx : Fields.get? k fs = some x) : P x :=
  ((hP.object fs).1 h).2 _ (Fields.mem_of_get? hx)

theorem WellFormed.of_get? {fs : Fields Tree} (h : (object fs).WellFormed) {k : String} {x : Tree}
    (hx : Fields.get? k fs = some x) : x.WellFormed := hereditary_wellFormed.of_get? h hx

/-! ## Equality -/

theorem sameItems_iff {xs ys : List Tree} :
    sameItems xs ys = true ↔ List.Forall₂ (fun x y => x.same y = true) xs ys := by
  induction xs generalizing ys with
  | nil => cases ys <;> simp [sameItems]
  | cons x xs ih => cases ys <;> simp [sameItems, ih]

theorem same_array {xs ys : List Tree} :
    (array xs).same (array ys) = true ↔ List.Forall₂ (fun x y => x.same y = true) xs ys := by
  rw [same, sameItems_iff]

theorem within_iff {fs gs : Fields Tree} :
    within gs fs = true ↔ ∀ f ∈ fs, ∃ y, Fields.get? f.1 gs = some y ∧ f.2.same y = true := by
  induction fs with
  | nil => simp [within]
  | cons f fs ih =>
    obtain ⟨k, x⟩ := f
    cases h : Fields.get? k gs <;> simp [within, h, ih]

/-- **Objects are equal exactly when their fields agree key by key.** -/
theorem same_object {fs gs : Fields Tree} (hf : fs.Distinct) (hg : gs.Distinct) :
    (object fs).same (object gs) = true ↔ Fields.Agree (fun x y => x.same y = true) fs gs := by
  rw [same, Bool.and_eq_true, beq_iff_eq, within_iff]
  constructor
  · rintro ⟨hlen, hw⟩ k
    have hsub : fs.keys ⊆ gs.keys := by
      intro k hk
      obtain ⟨f, hfm, rfl⟩ := List.mem_map.1 hk
      obtain ⟨y, hy, -⟩ := hw f hfm
      exact Fields.mem_keys_of_mem (f := (f.1, y)) (Fields.mem_of_get? hy)
    -- No key is repeated and there are equally many, so the keys are the same.
    have hperm : fs.keys.Perm gs.keys :=
      (hf.subperm hsub).perm_of_length_le (by simp [Fields.keys, hlen])
    cases hk : Fields.get? k fs with
    | none =>
      have hk' : Fields.get? k gs = none := by
        rw [Fields.get?_eq_none] at hk ⊢
        exact fun hm => hk (hperm.mem_iff.2 hm)
      simp [hk']
    | some x =>
      obtain ⟨y, hy, hxy⟩ := hw (k, x) (Fields.mem_of_get? hk)
      simp only at hy hxy
      simp [hy, hxy]
  · intro h
    refine ⟨h.length_eq hf hg, fun f hfm => ?_⟩
    have hk := h f.1
    rw [hf.get?_of_mem hfm] at hk
    cases hy : Fields.get? f.1 gs with
    | none => simp [hy] at hk
    | some y => exact ⟨y, rfl, by simpa [hy] using hk⟩

theorem exists_object_of_same {t : Tree} {gs : Fields Tree} (h : t.same (object gs) = true) :
    ∃ fs, t = object fs := by
  cases t <;> simp_all [same]

theorem exists_array_of_same {t : Tree} {ys : List Tree} (h : t.same (array ys) = true) :
    ∃ xs, t = array xs := by
  cases t <;> simp_all [same]

theorem same_unwrap {s t : Tree} (h : s.same t = true) : s.unwrap.same t.unwrap = true := by
  induction s generalizing t with
  | atom s ih =>
    cases t with
    | atom t =>
      rw [same] at h
      rw [Tree.unwrap, Tree.unwrap]
      exact ih h
    | _ => simp [same] at h
  | _ => cases t <;> first | exact h | simp [same] at h

theorem same_refl {t : Tree} (h : t.WellFormed) : t.same t = true := by
  induction t with
  | array xs ih =>
    rw [same_array, List.forall₂_same]
    exact fun x hx => ih x hx (wellFormed_array.1 h x hx)
  | object fs ih =>
    obtain ⟨hd, -⟩ := wellFormed_object.1 h
    rw [same_object hd hd]
    exact Fields.Agree.refl fun k x hx => ih k x (Fields.mem_of_get? hx) (h.of_get? hx)
  | atom t ih =>
    rw [same]
    exact ih (wellFormed_atom.1 h)
  | number n => simp [same, Number.same_refl]
  | _ => simp [same]

theorem atomFree_of_same {s t : Tree} (hs : s.WellFormed) (ht : t.WellFormed)
    (h : s.same t = true) (hf : t.atomFree = true) : s.atomFree = true := by
  induction s generalizing t with
  | array xs ih =>
    cases t with
    | array ys =>
      rw [same_array] at h
      rw [wellFormed_array] at hs ht
      rw [atomFree_array] at hf ⊢
      have hmem := forall₂_imp_mem (S := fun x _ => x.atomFree = true ∧ True) h
        fun x hx y hy hxy => ⟨ih x hx (hs x hx) (ht y hy) hxy (hf y hy), trivial⟩
      exact ((List.forall₂_and_left xs ys).1 hmem).1
    | _ => simp [same] at h
  | object fs ih =>
    cases t with
    | object gs =>
      obtain ⟨hdf, -⟩ := wellFormed_object.1 hs
      obtain ⟨hdg, -⟩ := wellFormed_object.1 ht
      rw [same_object hdf hdg] at h
      rw [atomFree_object] at hf ⊢
      intro f hfm
      have hx := hdf.get?_of_mem hfm
      have hk := h f.1
      rw [hx] at hk
      cases hy : Fields.get? f.1 gs with
      | none => simp [hy] at hk
      | some y =>
        rw [hy, Option.rel_some_some] at hk
        exact ih f.1 f.2 hfm (hs.of_get? hx) (ht.of_get? hy) hk (hf _ (Fields.mem_of_get? hy))
    | _ => simp [same] at h
  | atom s ih =>
    cases t with
    | atom t => simp at hf
    | _ => simp [same] at h
  | _ => rfl

theorem Plain.of_same {s t : Tree} (ht : t.Plain) (hs : s.WellFormed) (h : s.same t = true) :
    s.Plain := ⟨hs, atomFree_of_same hs ht.wellFormed h ht.atomFree⟩

theorem same_symm {s t : Tree} (hs : s.WellFormed) (ht : t.WellFormed) (h : s.same t = true) :
    t.same s = true := by
  induction s generalizing t with
  | array xs ih =>
    cases t with
    | array ys =>
      rw [same_array] at h ⊢
      rw [wellFormed_array] at hs ht
      exact List.Forall₂.flip
        (forall₂_imp_mem h fun x hx y hy hxy => ih x hx (hs x hx) (ht y hy) hxy)
    | _ => simp [same] at h
  | object fs ih =>
    cases t with
    | object gs =>
      obtain ⟨hf, -⟩ := wellFormed_object.1 hs
      obtain ⟨hg, -⟩ := wellFormed_object.1 ht
      rw [same_object hf hg] at h
      rw [same_object hg hf]
      exact h.symm fun k x y hx hy hxy =>
        ih k x (Fields.mem_of_get? hx) (hs.of_get? hx) (ht.of_get? hy) hxy
    | _ => simp [same] at h
  | atom s ih =>
    cases t with
    | atom t =>
      rw [same] at h ⊢
      exact ih (wellFormed_atom.1 hs) (wellFormed_atom.1 ht) h
    | _ => simp [same] at h
  | number n =>
    cases t with
    | number m =>
      rw [same] at h ⊢
      exact Number.same_symm h
    | _ => simp [same] at h
  | _ => cases t <;> simp_all [same]

theorem same_trans {s t u : Tree} (hs : s.WellFormed) (ht : t.WellFormed) (hu : u.WellFormed)
    (h : s.same t = true) (h' : t.same u = true) : s.same u = true := by
  induction s generalizing t u with
  | array xs ih =>
    cases t with
    | array ys =>
      cases u with
      | array zs =>
        rw [same_array] at h h' ⊢
        rw [wellFormed_array] at hs ht hu
        exact forall₂_comp_mem h h' fun x hx y hy z hz hxy hyz =>
          ih x hx (hs x hx) (ht y hy) (hu z hz) hxy hyz
      | _ => simp [same] at h'
    | _ => simp [same] at h
  | object fs ih =>
    cases t with
    | object gs =>
      cases u with
      | object hs' =>
        obtain ⟨hf, -⟩ := wellFormed_object.1 hs
        obtain ⟨hg, -⟩ := wellFormed_object.1 ht
        obtain ⟨hh, -⟩ := wellFormed_object.1 hu
        rw [same_object hf hg] at h
        rw [same_object hg hh] at h'
        rw [same_object hf hh]
        exact h.trans h' fun k x y z hx hy hz hxy hyz =>
          ih k x (Fields.mem_of_get? hx) (hs.of_get? hx) (ht.of_get? hy) (hu.of_get? hz) hxy hyz
      | _ => simp [same] at h'
    | _ => simp [same] at h
  | atom s ih =>
    cases t with
    | atom t =>
      cases u with
      | atom u =>
        rw [same] at h h' ⊢
        exact ih (wellFormed_atom.1 hs) (wellFormed_atom.1 ht) (wellFormed_atom.1 hu) h h'
      | _ => simp [same] at h'
    | _ => simp [same] at h
  | number n =>
    cases t with
    | number m =>
      cases u with
      | number l =>
        rw [same] at h h' ⊢
        exact Number.same_trans h h'
      | _ => simp [same] at h'
    | _ => simp [same] at h
  | _ => cases t <;> cases u <;> simp_all [same]

theorem same_comm {s t : Tree} (hs : s.WellFormed) (ht : t.WellFormed) : s.same t = t.same s := by
  rw [Bool.eq_iff_iff]
  exact ⟨same_symm hs ht, same_symm ht hs⟩

theorem same_congr {s s' t t' : Tree} (hs : s.WellFormed) (hs' : s'.WellFormed)
    (ht : t.WellFormed) (ht' : t'.WellFormed) (h : s.same s' = true) (h' : t.same t' = true) :
    s.same t = s'.same t' := by
  rw [Bool.eq_iff_iff]
  constructor
  · intro hst
    exact same_trans hs' hs ht' (same_symm hs hs' h) (same_trans hs ht ht' hst h')
  · intro hst
    exact same_trans hs hs' ht h (same_trans hs' ht' ht hst (same_symm ht ht' h'))

end Tree

end ConfigOverlay
