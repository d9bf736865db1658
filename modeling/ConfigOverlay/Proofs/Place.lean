import ConfigOverlay.Proofs.Minimal

/-!
# Writing one place

An assignment empties a place, makes the objects that lead there and fills it again, and it must
lose nothing on the way.

**Theorem (`getPath?_assign`).** After an assignment its path leads to the value. A path that
neither leads to the place nor goes on from it leads to what it led to before. And on the way to
the place stand objects, with the keys that were there, in their order, and the next key of the
path behind them if it is new.

A path finds a subtree or nothing, and an assignment goes on with `null` where it finds nothing.
The two come together in `descend`: what an assignment goes on with is what its path has found, or
`null` (`descend_eq`), and on the way it leaves an assignment of the rest of its path
(`getPath?_assign_append`).
-/

namespace ConfigOverlay.Tree

variable {k l : String} {path p q s : KeyPath} {t v base : Tree}

/-! ## One key -/

@[simp] theorem getPath?_nil (t : Tree) : getPath? [] t = some t := rfl

theorem getPath?_cons (k : String) (path : KeyPath) (t : Tree) :
    getPath? (k :: path) t = (t.get? k).bind (getPath? path) := rfl

theorem getPath?_null (h : path ≠ []) : getPath? path null = none := by
  obtain ⟨k, path, rfl⟩ := List.exists_cons_of_ne_nil h
  rfl

theorem get?_eq_of_atomFree (h : t.atomFree = true) (k : String) :
    t.get? k = Fields.get? k t.fieldsOrEmpty := by
  cases t with
  | atom t => simp at h
  | _ => rfl

theorem child_eq_getD (h : t.atomFree = true) (k : String) : child k t = (t.get? k).getD null := by
  rw [get?_eq_of_atomFree h, child]

theorem atomFree_get? {x : Tree} (h : t.atomFree = true) (hx : t.get? k = some x) :
    x.atomFree = true := by
  cases t with
  | object fs => exact atomFree_object.1 h _ (Fields.mem_of_get? hx)
  | _ => cases hx

theorem get?_assign_self (k : String) (path : KeyPath) (v base : Tree) :
    (assign (k :: path) v base).get? k = some (assign path v (child k base)) :=
  Fields.get?_set_self k _ _

theorem get?_assign_of_ne (hb : base.atomFree = true) (h : l ≠ k) (path : KeyPath) (v : Tree) :
    (assign (k :: path) v base).get? l = base.get? l := by
  rw [get?_eq_of_atomFree hb]
  exact Fields.get?_set_of_ne h _ _

/-! ## Along the path -/

/-- **What an assignment goes on with** is what its path finds, or `null`. -/
theorem descend_eq (h : t.atomFree = true) (path : KeyPath) :
    descend path t = (getPath? path t).getD null := by
  induction path generalizing t with
  | nil => rfl
  | cons k path ih =>
    rw [descend, child_eq_getD h, getPath?_cons]
    cases hx : t.get? k with
    | none =>
      rw [Option.getD_none, ih rfl, Option.bind_none, Option.getD_none]
      cases path <;> rfl
    | some x => exact ih (atomFree_get? h hx)

/-- On the way to the place stands an assignment of the rest of the path. -/
theorem getPath?_assign_append (s path : KeyPath) (v base : Tree) :
    getPath? s (assign (s ++ path) v base) = some (assign path v (descend s base)) := by
  induction s generalizing base with
  | nil => rfl
  | cons k s ih =>
    rw [List.cons_append, getPath?_cons, get?_assign_self, Option.bind_some]
    exact ih (child k base)

/-- **Beside the way nothing changes.** -/
theorem getPath?_assign_of_incomparable (hb : base.atomFree = true) (h : p.Incomparable q)
    (v : Tree) : getPath? q (assign p v base) = getPath? q base := by
  induction p generalizing q base with
  | nil => exact absurd h (KeyPath.not_incomparable_nil q)
  | cons k p ih =>
    cases q with
    | nil => exact absurd h.symm (KeyPath.not_incomparable_nil (k :: p))
    | cons l q =>
      rw [getPath?_cons, getPath?_cons]
      by_cases hlk : l = k
      · subst hlk
        rw [get?_assign_self, Option.bind_some, child_eq_getD hb]
        cases hx : base.get? l with
        | none =>
          have hq : q ≠ [] := by
            rintro rfl
            exact KeyPath.not_incomparable_nil p h.tail.symm
          rw [Option.getD_none, ih rfl h.tail, getPath?_null hq, Option.bind_none]
        | some x => exact ih (atomFree_get? hb hx) h.tail
      · rw [get?_assign_of_ne hb hlk]

theorem atomFree_getPath? (h : t.atomFree = true) (hx : getPath? path t = some v) :
    v.atomFree = true := by
  induction path generalizing t with
  | nil =>
    cases hx
    exact h
  | cons k path ih =>
    obtain ⟨x, hk, hx⟩ := Option.bind_eq_some_iff.1 hx
    exact ih (atomFree_get? h hk) hx

/-! ## The whole of an assignment -/

/-- The keys of the object at a path, none where there is no object. -/
def keysAt (path : KeyPath) (t : Tree) : List String :=
  Fields.keys (((getPath? path t).bind fields?).getD [])

theorem keys_descend (h : t.atomFree = true) (path : KeyPath) :
    (descend path t).fieldsOrEmpty.keys = keysAt path t := by
  rw [descend_eq h, keysAt]
  cases hx : getPath? path t with
  | none => rfl
  | some u =>
    rw [Option.getD_some, Option.bind_some, fieldsOrEmpty,
      unwrap_of_atomFree (atomFree_getPath? h hx)]

/-- **An assignment writes one place and nothing else.** Its path leads to the value. Paths beside
it lead where they led before. What stands on the way is an object whose keys are those that were
there, in their order, then the next key of the path if it was not among them. -/
theorem getPath?_assign (hb : base.atomFree = true) (path : KeyPath) (v : Tree) :
    getPath? path (assign path v base) = some v ∧
    (∀ q, ¬ path <+: q → ¬ q <+: path → getPath? q (assign path v base) = getPath? q base) ∧
    ∀ s k rest, path = s ++ k :: rest → ∃ fs : Fields Tree,
      getPath? s (assign path v base) = some (object fs) ∧
      fs.keys = if k ∈ keysAt s base then keysAt s base else keysAt s base ++ [k] := by
  refine ⟨?_, fun q hpq hqp => getPath?_assign_of_incomparable hb ⟨hpq, hqp⟩ v, ?_⟩
  · have hplace := getPath?_assign_append path [] v base
    rwa [List.append_nil, assign_nil] at hplace
  · rintro s k rest rfl
    refine ⟨_, getPath?_assign_append s (k :: rest) v base, ?_⟩
    rw [Fields.keys_set, keys_descend hb]

/-- The path goes through an object with keys on both sides of its own and meets an array, which
gives way to an object; what is written holds an atom. -/
theorem getPath?_assign_over_array :
    let base := object [("log", null), ("server", object [("tls", array [null]), ("port", null)])]
    let v := object [("file", atom null)]
    let r := assign ["server", "tls", "cert"] v base
    base.atomFree = true ∧ ¬ ["server", "tls", "cert"] <+: ["server", "port"] ∧
      ¬ ["server", "port"] <+: ["server", "tls", "cert"] ∧
      ["server", "tls", "cert"] = ["server"] ++ "tls" :: ["cert"] ∧
      getPath? ["server", "tls", "cert"] r = some v ∧
      getPath? ["server", "port"] r = some null ∧
      ∃ fs : Fields Tree, getPath? ["server"] r = some (object fs) ∧ fs.keys = ["tls", "port"] := by
  intro base v r
  have hb : base.atomFree = true := by decide
  have hpq : ¬ ["server", "tls", "cert"] <+: ["server", "port"] := by decide
  have hqp : ¬ ["server", "port"] <+: ["server", "tls", "cert"] := by decide
  obtain ⟨hplace, hbeside, hway⟩ := getPath?_assign hb ["server", "tls", "cert"] v
  exact ⟨hb, hpq, hqp, rfl, hplace, hbeside ["server", "port"] hpq hqp,
    hway ["server"] "tls" ["cert"] rfl⟩

end ConfigOverlay.Tree
