import ConfigOverlay.Proofs.Commute
import ConfigOverlay.Proofs.Decode

/-!
# Assignments that cannot be left out

The branches of a tree stand at paths of which none leads to another (`apart_branches`). Written
over a base they do not touch each other: after all of them, each path leads to what was written at
it, and where one was left out, to what the base has there (`descend_assignAll`).

**So assignments that each change what the base has can none of them be left out**
(`Minimal.assignAll_eraseIdx_ne`).
-/

namespace ConfigOverlay

namespace KeyPath

variable {k l : String} {p q : KeyPath}

theorem Incomparable.cons (h : Incomparable p q) (k : String) : Incomparable (k :: p) (k :: q) :=
  ⟨fun hpq => h.1 (List.cons_prefix_cons.1 hpq).2, fun hqp => h.2 (List.cons_prefix_cons.1 hqp).2⟩

theorem incomparable_of_ne (h : k ≠ l) (p q : KeyPath) : Incomparable (k :: p) (l :: q) :=
  ⟨fun hpq => h (List.cons_prefix_cons.1 hpq).1, fun hqp => h (List.cons_prefix_cons.1 hqp).1.symm⟩

end KeyPath

namespace Tree

/-! ## Where a path leads -/

/-- What a path leads to, `null` where it leads nowhere. -/
def descend : KeyPath → Tree → Tree
  | [], t => t
  | k :: path, t => descend path (child k t)

theorem descend_assign_self (path : KeyPath) (v base : Tree) :
    descend path (assign path v base) = v := by
  induction path generalizing base with
  | nil => rfl
  | cons k path ih => rw [descend, child_assign_self, ih]

theorem descend_assign_of_incomparable {p q : KeyPath} (h : p.Incomparable q) (v base : Tree) :
    descend p (assign q v base) = descend p base := by
  induction p generalizing q base with
  | nil => exact absurd h (KeyPath.not_incomparable_nil q)
  | cons k p ih =>
    cases q with
    | nil => exact absurd h.symm (KeyPath.not_incomparable_nil (k :: p))
    | cons l q =>
      rw [descend, descend]
      by_cases hkl : k = l
      · subst hkl
        rw [child_assign_self, ih h.tail]
      · rw [child_assign_of_ne hkl]

theorem descend_assignAll {p : KeyPath} {es : List (KeyPath × Tree)}
    (h : ∀ e ∈ es, p.Incomparable e.1) (base : Tree) :
    descend p (assignAll es base) = descend p base := by
  induction es generalizing base with
  | nil => rfl
  | cons e es ih =>
    rw [List.forall_mem_cons] at h
    rw [assignAll_cons, ih h.2, descend_assign_of_incomparable h.1]

/-! ## Paths apart -/

/-- No path leads to another. -/
def Apart (es : List (KeyPath × Tree)) : Prop := es.Pairwise fun e e' => e.1.Incomparable e'.1

theorem apart_fieldBranches {fs : Fields Tree} (hd : fs.Distinct)
    (h : ∀ f ∈ fs, Apart (branches f.2)) : Apart (fieldBranches fs) := by
  rw [Apart, fieldBranches, List.pairwise_flatMap]
  constructor
  · intro f hf
    rw [List.pairwise_map]
    exact (h f hf).imp fun he => he.cons f.1
  · rw [Fields.Distinct, Fields.keys, List.Nodup, List.pairwise_map] at hd
    refine hd.imp fun hne => ?_
    simp only [List.forall_mem_map]
    exact fun e _ e' _ => KeyPath.incomparable_of_ne hne e.1 e'.1

/-- **The branches of a tree are apart.** -/
theorem apart_branches {t : Tree} (h : t.WellFormed) : Apart (branches t) := by
  induction t with
  | object fs ih =>
    cases hs : (Tree.object fs).splits with
    | false =>
      rw [branches_of_not_splits hs]
      exact List.pairwise_singleton _ _
    | true =>
      obtain ⟨hd, hf⟩ := wellFormed_object.1 h
      rw [branches_of_splits hs]
      exact apart_fieldBranches hd fun f hfm => ih f.1 f.2 hfm (hf f hfm)
  | _ => exact List.pairwise_singleton _ _

theorem apart_decode {fs : Fields Tree} (h : (object fs).WellFormed)
    (hk : ∀ k ∈ fs.keys, isAddressable k = true) : Apart (decode (object fs)) := by
  obtain ⟨hd, hf⟩ := wellFormed_object.1 h
  rw [decode_object hk]
  exact apart_fieldBranches hd fun f hfm => apart_branches (hf f hfm)

variable {es : List (KeyPath × Tree)}

/-- After all assignments each path leads to what was written at it. -/
theorem Apart.descend_assignAll (h : Apart es) {e : KeyPath × Tree} (he : e ∈ es) (base : Tree) :
    descend e.1 (assignAll es base) = e.2 := by
  obtain ⟨before, after, rfl⟩ := List.append_of_mem he
  rw [Apart, List.pairwise_append, List.pairwise_cons] at h
  rw [assignAll_append, assignAll_cons, Tree.descend_assignAll h.2.1.1, descend_assign_self]

/-- One that is left out leads to what the base has. -/
theorem Apart.descend_assignAll_eraseIdx (h : Apart es) {i : Nat} (hi : i < es.length)
    (base : Tree) : descend es[i].1 (assignAll (es.eraseIdx i) base) = descend es[i].1 base := by
  apply Tree.descend_assignAll
  intro e he
  obtain ⟨j, hj, hne, rfl⟩ := List.mem_eraseIdx_iff_getElem.1 he
  rw [Apart, List.pairwise_iff_getElem] at h
  rcases Nat.lt_or_gt_of_ne hne with hlt | hgt
  · exact (h j i hj hi hlt).symm
  · exact h i j hi hj hgt

/-! ## Assignments that none can be left out of -/

/-- Assignments apart from each other that lead from one tree to another, and each of them changes
what stands at its path. -/
structure Minimal (es : List (KeyPath × Tree)) (s t : Tree) : Prop where
  reaches : assignAll es s = t
  apart : Apart es
  changes : ∀ e ∈ es, descend e.1 s ≠ e.2

namespace Minimal

variable {s t : Tree}

theorem eq_nil_iff (h : Minimal es s t) : es = [] ↔ s = t := by
  constructor
  · rintro rfl
    exact h.reaches
  · rintro rfl
    rw [List.eq_nil_iff_forall_not_mem]
    intro e he
    have hself := h.apart.descend_assignAll he s
    rw [h.reaches] at hself
    exact h.changes e he hself

/-- **None of the assignments can be left out.** -/
theorem assignAll_eraseIdx_ne (h : Minimal es s t) {i : Nat} (hi : i < es.length) :
    assignAll (es.eraseIdx i) s ≠ t := by
  intro heq
  have hmem : es[i] ∈ es := List.getElem_mem hi
  have hwithout := h.apart.descend_assignAll_eraseIdx hi s
  have hwith := h.apart.descend_assignAll hmem s
  rw [heq] at hwithout
  rw [h.reaches] at hwith
  exact h.changes _ hmem (hwithout.symm.trans hwith)

end Minimal

end Tree

end ConfigOverlay
