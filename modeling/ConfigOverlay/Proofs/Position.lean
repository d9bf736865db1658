import ConfigOverlay.Proofs.Tree

/-!
# Positions in a tree

A position leads from the root through objects by a key and through arrays by an index, and never
into an atom. What a tree holds there inherits its hereditary properties (`Hereditary.subtree?`).

Three trees are `Aligned` up to a position when all of them hold containers of one kind everywhere
on the way. One step keeps that (`Aligned.tail`), so facts about aligned trees go by induction on
the position.
-/

namespace ConfigOverlay.Tree

/-- One step from a container to one of its parts. -/
inductive Step where
  | key (k : String)
  | item (i : Nat)
deriving DecidableEq

/-- A way from the root of a tree through objects and arrays. -/
abbrev Position := List Step

/-- The part of a tree that a step leads to. -/
def part? : Step → Tree → Option Tree
  | .key k, .object fs => Fields.get? k fs
  | .item i, .array xs => xs[i]?
  | _, _ => none

/-- What a tree holds at a position. -/
def subtree? : Position → Tree → Option Tree
  | [], t => some t
  | e :: q, t => (t.part? e).bind (subtree? q)

variable {e : Step} {q : Position} {s t o a b c : Tree}

theorem subtree?_cons (e : Step) (q : Position) (t : Tree) :
    t.subtree? (e :: q) = (t.part? e).bind (subtree? q) := rfl

theorem of_part? {P : Tree → Prop} (harray : ∀ {xs}, P (array xs) → ∀ x ∈ xs, P x)
    (hobject : ∀ {fs}, P (object fs) → ∀ f ∈ fs, P f.2) (ht : P t) (h : t.part? e = some b) :
    P b := by
  cases e with
  | key k =>
    cases t with
    | object fs => exact hobject ht _ (Fields.mem_of_get? h)
    | _ => cases h
  | item i =>
    cases t with
    | array xs => exact harray ht b (List.mem_of_getElem? h)
    | _ => cases h

theorem Hereditary.part? {P : Tree → Prop} (hP : Hereditary P) (ht : P t)
    (h : t.part? e = some b) : P b :=
  of_part? (fun hx => (hP.array _).1 hx) (fun hf => ((hP.object _).1 hf).2) ht h

theorem atomFree_part? (ht : t.atomFree = true) (h : t.part? e = some b) : b.atomFree = true :=
  of_part? (P := fun t : Tree => t.atomFree = true) atomFree_array.1 atomFree_object.1 ht h

theorem atomFree_of_forall_part? (ht : t.WellFormed) (hc : t.isAtom = false)
    (h : ∀ e b, t.part? e = some b → b.atomFree = true) : t.atomFree = true := by
  cases t with
  | array xs =>
    refine atomFree_array.2 fun x hx => ?_
    obtain ⟨i, hi⟩ := List.mem_iff_getElem?.1 hx
    exact h (.item i) x hi
  | object fs =>
    have hd := (wellFormed_object.1 ht).1
    exact atomFree_object.2 fun f hf => h (.key f.1) f.2 (hd.get?_of_mem hf)
  | atom t => cases hc
  | _ => rfl

theorem Hereditary.subtree? {P : Tree → Prop} (hP : Hereditary P) (ht : P t)
    (h : t.subtree? q = some b) : P b := by
  induction q generalizing t with
  | nil => exact Option.some.inj h ▸ ht
  | cons e q ih =>
    obtain ⟨u, hu, hb⟩ := Option.bind_eq_some_iff.1 h
    exact ih (hP.part? ht hu) hb

theorem depth_part?_lt (h : t.part? e = some b) : b.depth < t.depth := by
  cases e with
  | key k =>
    cases t with
    | object fs => exact depth_lt_of_mem_object (Fields.mem_of_get? h)
    | _ => cases h
  | item i =>
    cases t with
    | array xs => exact depth_lt_of_mem_array (List.mem_of_getElem? h)
    | _ => cases h

/-- A position is no longer than the tree is deep. -/
theorem length_add_depth_le (h : t.subtree? q = some b) : q.length + b.depth ≤ t.depth := by
  induction q generalizing t with
  | nil =>
    cases h
    simp
  | cons e q ih =>
    obtain ⟨u, hu, hb⟩ := Option.bind_eq_some_iff.1 h
    have hlt := depth_part?_lt hu
    have hle := ih hb
    rw [List.length_cons]
    omega

/-! ## Aligned trees -/

/-- An object or an array. -/
inductive IsContainer : Tree → Prop
  | object (fs : Fields Tree) : IsContainer (object fs)
  | array (xs : List Tree) : IsContainer (array xs)

/-- Both are objects, or both are arrays. -/
inductive SameContainer : Tree → Tree → Prop
  | object (fs gs : Fields Tree) : SameContainer (object fs) (object gs)
  | array (xs ys : List Tree) : SameContainer (array xs) (array ys)

theorem SameContainer.isContainer (h : SameContainer a b) : a.IsContainer := by
  cases h with
  | object fs gs => exact .object fs
  | array xs ys => exact .array xs

theorem SameContainer.symm (h : SameContainer a b) : SameContainer b a := by
  cases h with
  | object fs gs => exact .object gs fs
  | array xs ys => exact .array ys xs

theorem SameContainer.trans (h : SameContainer a b) (h' : SameContainer b c) :
    SameContainer a c := by
  cases h with
  | object fs gs =>
    cases h' with
    | object _ hs => exact .object fs hs
  | array xs ys =>
    cases h' with
    | array _ zs => exact .array xs zs

theorem sameContainer_of_part? (hs : s.part? e = some a) (ht : t.part? e = some b) :
    SameContainer s t := by
  cases e with
  | key k =>
    cases s with
    | object fs =>
      cases t with
      | object gs => exact .object fs gs
      | _ => cases ht
    | _ => cases hs
  | item i =>
    cases s with
    | array xs =>
      cases t with
      | array ys => exact .array xs ys
      | _ => cases ht
    | _ => cases hs

/-- Everywhere on the way to a position, short of it, the three trees hold containers of one
kind. -/
def Aligned (q : Position) (s t o : Tree) : Prop :=
  ∀ r, r <+: q → r ≠ q → ∃ a b c, s.subtree? r = some a ∧ t.subtree? r = some b ∧
    o.subtree? r = some c ∧ SameContainer a b ∧ SameContainer a c

theorem aligned_nil : Aligned [] s t o := fun _ hr hne => absurd (List.prefix_nil.1 hr) hne

theorem Aligned.cons (hst : SameContainer s t) (hso : SameContainer s o)
    (ha : s.part? e = some a) (hb : t.part? e = some b) (hc : o.part? e = some c)
    (h : Aligned q a b c) : Aligned (e :: q) s t o := by
  intro r hr hne
  cases r with
  | nil => exact ⟨s, t, o, rfl, rfl, rfl, hst, hso⟩
  | cons f r =>
    obtain ⟨rfl, hrq⟩ := List.cons_prefix_cons.1 hr
    simpa only [subtree?_cons, ha, hb, hc, Option.bind_some] using h r hrq (by simpa using hne)

theorem Aligned.root (h : Aligned (e :: q) s t o) : SameContainer s t ∧ SameContainer s o := by
  obtain ⟨a, b, c, ha, hb, hc, hab, hac⟩ := h [] List.nil_prefix (by simp)
  cases ha
  cases hb
  cases hc
  exact ⟨hab, hac⟩

theorem Aligned.tail (h : Aligned (e :: q) s t o) (ha : s.part? e = some a)
    (hb : t.part? e = some b) (hc : o.part? e = some c) : Aligned q a b c := by
  intro r hr hne
  have hr' : e :: r <+: e :: q := List.cons_prefix_cons.2 ⟨rfl, hr⟩
  simpa only [subtree?_cons, ha, hb, hc, Option.bind_some] using h (e :: r) hr' (by simpa using hne)

end ConfigOverlay.Tree
