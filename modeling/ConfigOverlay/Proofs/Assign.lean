import ConfigOverlay.KeyPath.Assign
import ConfigOverlay.Proofs.Tree

/-!
# Writing along paths

An assignment goes down one key at a time. At every key it needs two things of the tree that it
stands on: the fields to keep, `fieldsOrEmpty`, and the tree to go on with, `child`. Whatever is
no object keeps nothing and goes on with `null`, so no proof about assignments asks what kind of
tree it stands on.

Assignments keep hereditary properties and respect equality (`assign_same`). A list of assignments
that all start with one key is one change under that key (`assignAll_below`).
-/

namespace ConfigOverlay

namespace Tree

variable {P : Tree → Prop}

/-! ## Fields and children -/

/-- The tree that a path goes on with under a key: the value there, or `null`. -/
def child (k : String) (t : Tree) : Tree := (Fields.get? k t.fieldsOrEmpty).getD .null

@[simp] theorem fieldsOrEmpty_object (fs : Fields Tree) : (object fs).fieldsOrEmpty = fs := rfl

@[simp] theorem fieldsOrEmpty_null : null.fieldsOrEmpty = [] := rfl

@[simp] theorem fieldsOrEmpty_array (xs : List Tree) : (array xs).fieldsOrEmpty = [] := rfl

@[simp] theorem fieldsOrEmpty_atom (t : Tree) : (atom t).fieldsOrEmpty = t.fieldsOrEmpty := by
  rw [fieldsOrEmpty, fieldsOrEmpty, Tree.unwrap]

theorem fieldsOrEmpty_eq_nil {t : Tree} (h : t.atomFree = true) (hn : ∀ fs, t ≠ object fs) :
    t.fieldsOrEmpty = [] := by
  cases t with
  | object fs => exact absurd rfl (hn fs)
  | atom t => simp at h
  | _ => rfl

theorem Hereditary.fieldsOrEmpty (hP : Hereditary P) {t : Tree} (h : P t) :
    t.fieldsOrEmpty.Distinct ∧ ∀ f ∈ t.fieldsOrEmpty, P f.2 := by
  induction t with
  | object fs ih => exact (hP.object fs).1 h
  | atom t ih =>
    rw [fieldsOrEmpty_atom]
    exact ih (hP.content t h)
  | _ => exact ⟨List.nodup_nil, by simp [Tree.fieldsOrEmpty, Tree.unwrap, fields?]⟩

theorem Hereditary.child (hP : Hereditary P) {t : Tree} (h : P t) (k : String) :
    P (child k t) := by
  obtain ⟨-, hf⟩ := hP.fieldsOrEmpty h
  rw [Tree.child]
  cases hk : Fields.get? k t.fieldsOrEmpty with
  | none => exact hP.null
  | some x => exact hf _ (Fields.mem_of_get? hk)

theorem depth_child_lt (k : String) (fs : Fields Tree) :
    (child k (object fs)).depth < (object fs).depth := by
  rw [child, fieldsOrEmpty_object]
  cases hk : Fields.get? k fs with
  | none =>
    rw [depth, Option.getD_none, depth.eq_def null]
    exact Nat.succ_pos _
  | some x => exact depth_lt_of_mem_object (Fields.mem_of_get? hk)

theorem fieldsOrEmpty_same {s t : Tree} (hs : s.WellFormed) (ht : t.WellFormed)
    (h : s.same t = true) :
    Fields.Agree (fun x y => x.same y = true) s.fieldsOrEmpty t.fieldsOrEmpty := by
  induction s generalizing t with
  | object fs ih =>
    cases t with
    | object gs =>
      rw [same_object (wellFormed_object.1 hs).1 (wellFormed_object.1 ht).1] at h
      exact h
    | _ => simp [same] at h
  | atom s ih =>
    cases t with
    | atom t =>
      rw [same] at h
      rw [fieldsOrEmpty_atom, fieldsOrEmpty_atom]
      exact ih (wellFormed_atom.1 hs) (wellFormed_atom.1 ht) h
    | _ => simp [same] at h
  | _ => cases t <;> first | exact fun k => .none | simp [same] at h

theorem child_same_of_rel {s t : Tree} {k : String}
    (h : Option.Rel (fun x y : Tree => x.same y = true)
      (Fields.get? k s.fieldsOrEmpty) (Fields.get? k t.fieldsOrEmpty)) :
    (child k s).same (child k t) = true := by
  rw [child, child]
  generalize Fields.get? k s.fieldsOrEmpty = x at h ⊢
  generalize Fields.get? k t.fieldsOrEmpty = y at h ⊢
  cases h with
  | some hxy => exact hxy
  | none => rfl

theorem child_same {s t : Tree} (hs : s.WellFormed) (ht : t.WellFormed) (h : s.same t = true)
    (k : String) : (child k s).same (child k t) = true :=
  child_same_of_rel (fieldsOrEmpty_same hs ht h k)

/-! ## Assignments -/

@[simp] theorem assign_nil (v base : Tree) : assign [] v base = v := rfl

theorem assign_cons (k : String) (path : KeyPath) (v base : Tree) :
    assign (k :: path) v base =
      object (Fields.set k (assign path v (child k base)) base.fieldsOrEmpty) := rfl

theorem child_assign_self (k : String) (path : KeyPath) (v base : Tree) :
    child k (assign (k :: path) v base) = assign path v (child k base) := by
  rw [assign_cons, child, fieldsOrEmpty_object, Fields.get?_set_self, Option.getD_some]

theorem child_assign_of_ne {k l : String} (h : l ≠ k) (path : KeyPath) (v base : Tree) :
    child l (assign (k :: path) v base) = child l base := by
  rw [assign_cons, child, fieldsOrEmpty_object, Fields.get?_set_of_ne h, ← child]

/-- Over whatever holds no fields an assignment writes a single branch. -/
theorem assign_eq_encode {base : Tree} (hb : base.fieldsOrEmpty = []) (path : KeyPath) (v : Tree) :
    assign path v base = encode path v := by
  induction path generalizing base with
  | nil => rfl
  | cons k path ih =>
    have hchild : child k base = .null := by rw [child, hb]; rfl
    rw [assign_cons, hchild, hb, ih rfl]
    rfl

/-- **Assignments keep hereditary properties.** -/
theorem Hereditary.assign (hP : Hereditary P) {v base : Tree} (hv : P v) (hb : P base)
    (path : KeyPath) : P (assign path v base) := by
  induction path generalizing base with
  | nil => exact hv
  | cons k path ih =>
    obtain ⟨hd, hf⟩ := hP.fieldsOrEmpty hb
    rw [assign_cons, hP.object]
    exact ⟨hd.set k _, Fields.forall_mem_set hf k (ih (hP.child hb k))⟩

/-- **Assignments respect equality**, of the value and of the tree they change. -/
theorem assign_same {v w a b : Tree} (ha : a.WellFormed) (hb : b.WellFormed)
    (hvw : v.same w = true) (h : a.same b = true) (path : KeyPath) :
    (assign path v a).same (assign path w b) = true := by
  induction path generalizing a b with
  | nil => exact hvw
  | cons k path ih =>
    have hda := (hereditary_wellFormed.fieldsOrEmpty ha).1
    have hdb := (hereditary_wellFormed.fieldsOrEmpty hb).1
    rw [assign_cons, assign_cons, same_object (hda.set k _) (hdb.set k _)]
    exact (fieldsOrEmpty_same ha hb h).set k
      (ih (hereditary_wellFormed.child ha k) (hereditary_wellFormed.child hb k)
        (child_same ha hb h k))

/-! ## Lists of assignments -/

/-- Write values at paths, one after the other. -/
def assignAll (branches : List (KeyPath × Tree)) (base : Tree) : Tree :=
  branches.foldl (fun t e => assign e.1 e.2 t) base

@[simp] theorem assignAll_nil (base : Tree) : assignAll [] base = base := rfl

theorem assignAll_cons (e : KeyPath × Tree) (es : List (KeyPath × Tree)) (base : Tree) :
    assignAll (e :: es) base = assignAll es (assign e.1 e.2 base) := rfl

theorem assignAll_append (es es' : List (KeyPath × Tree)) (base : Tree) :
    assignAll (es ++ es') base = assignAll es' (assignAll es base) := List.foldl_append

theorem Hereditary.assignAll (hP : Hereditary P) {es : List (KeyPath × Tree)} {base : Tree}
    (hb : P base) (hes : ∀ e ∈ es, P e.2) : P (assignAll es base) := by
  induction es generalizing base with
  | nil => exact hb
  | cons e es ih =>
    rw [List.forall_mem_cons] at hes
    exact ih (hP.assign hes.1 hb e.1) hes.2

/-- **Assignments below one key change what is under that key**, and nothing else. -/
theorem assignAll_below (k : String) {es : List (KeyPath × Tree)} (hne : es ≠ []) (base : Tree) :
    assignAll (es.map fun e => (k :: e.1, e.2)) base =
      object (Fields.set k (assignAll es (child k base)) base.fieldsOrEmpty) := by
  induction es generalizing base with
  | nil => exact absurd rfl hne
  | cons e es ih =>
    rw [List.map_cons, assignAll_cons]
    cases es with
    | nil => exact assign_cons k e.1 e.2 base
    | cons e' es =>
      -- The later assignments find what the first one wrote, and write over it.
      rw [ih (by simp), child_assign_self, assign_cons, fieldsOrEmpty_object, Fields.set_set,
        ← assignAll_cons]

end Tree

end ConfigOverlay
