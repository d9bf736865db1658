import ConfigOverlay.Merge
import ConfigOverlay.Proofs.Tree

/-!
# Merging, key by key

**What a merge can do.** Merging looks inside two objects and two arrays that the policy does not
keep together, above the depth limit (`LooksInside`). There it merges key by key
(`get?_mergedFields`) or item by item. Everywhere else it takes the overlay without its wrappers.

From this one case split follow the facts about merging that do not look at particular trees:
merging keeps hereditary properties, such as well-formedness, and it respects equality
(`mergeAt_same`), provided that the policy does.
-/

namespace ConfigOverlay

/-- Equal pairs of trees are indivisible alike. -/
def Policy.Respectful (p : Policy) : Prop :=
  ∀ a a' b b' : Tree, a.WellFormed → a'.WellFormed → b.WellFormed → b'.WellFormed →
    a.same a' = true → b.same b' = true → p a b = p a' b'

theorem Policy.never_respectful : Policy.never.Respectful := fun _ _ _ _ _ _ _ _ _ _ => rfl

namespace Tree

variable {p : Policy} {d : Nat}

/-! ## Objects and arrays -/

/-- The fields of two merged objects. -/
def mergedFields (p : Policy) (d : Nat) (fs gs : Fields Tree) : Fields Tree :=
  mergeFields p d gs fs ++ gs.filter fun g => !Fields.has g.1 fs

theorem mergeFields_eq_map (fs gs : Fields Tree) :
    mergeFields p d gs fs =
      fs.map fun f => (f.1, (Fields.get? f.1 gs).elim f.2 (mergeAt p d f.2)) := by
  induction fs with
  | nil => rfl
  | cons f fs ih =>
    rw [mergeFields, ih, List.map_cons]
    cases Fields.get? f.1 gs <;> rfl

/-- **The merged fields by key.** A shared key merges, and any other key keeps its value. -/
theorem get?_mergedFields (k : String) (fs gs : Fields Tree) :
    Fields.get? k (mergedFields p d fs gs) =
      ((Fields.get? k fs).map fun x => (Fields.get? k gs).elim x (mergeAt p d x)).or
        (Fields.get? k gs) := by
  rw [mergedFields, mergeFields_eq_map, Fields.get?_append,
    Fields.get?_map fun k x => (Fields.get? k gs).elim x (mergeAt p d x),
    Fields.get?_filter fun k => !Fields.has k fs]
  cases h : Fields.get? k fs <;> simp [Fields.has, h]

theorem keys_mergeFields (fs gs : Fields Tree) :
    Fields.keys (mergeFields p d gs fs) = fs.keys := by
  rw [mergeFields_eq_map]
  exact Fields.keys_map (fun k x => (Fields.get? k gs).elim x (mergeAt p d x)) fs

/-- **The merged keys in order**: those of the base, then the new ones of the overlay. -/
theorem keys_mergedFields (fs gs : Fields Tree) :
    (mergedFields p d fs gs).keys = fs.keys ++ gs.keys.filter (· ∉ fs.keys) := by
  have hnew : Fields.keys (gs.filter fun g => !Fields.has g.1 fs) =
      gs.keys.filter (· ∉ fs.keys) := by
    rw [Fields.keys_filter fun k => !Fields.has k fs]
    exact List.filter_congr fun k _ => Fields.not_has k fs
  rw [mergedFields, Fields.keys, List.map_append, ← hnew, ← keys_mergeFields fs gs]
  rfl

theorem distinct_mergedFields {fs gs : Fields Tree} (hf : fs.Distinct) (hg : gs.Distinct) :
    (mergedFields p d fs gs).Distinct := by
  rw [Fields.Distinct, keys_mergedFields]
  refine List.nodup_append.2 ⟨hf, hg.sublist List.filter_sublist, fun k hk l hl => ?_⟩
  rintro rfl
  simpa [hk] using (List.mem_filter.1 hl).2

theorem forall_mem_mergedFields {P : Tree → Prop} {fs gs : Fields Tree}
    (hm : ∀ k x y, (k, x) ∈ fs → (k, y) ∈ gs → P (mergeAt p d x y))
    (hf : ∀ f ∈ fs, P f.2) (hg : ∀ g ∈ gs, P g.2) : ∀ f ∈ mergedFields p d fs gs, P f.2 := by
  intro f hfm
  rw [mergedFields, mergeFields_eq_map, List.mem_append] at hfm
  rcases hfm with hfm | hfm
  · obtain ⟨⟨k, x⟩, hx, rfl⟩ := List.mem_map.1 hfm
    cases h : Fields.get? k gs with
    | none => exact hf _ hx
    | some y => exact hm k x y hx (Fields.mem_of_get? h)
  · exact hg f (List.mem_filter.1 hfm).1

theorem forall_mem_mergeItems {P : Tree → Prop} {xs ys : List Tree}
    (hm : ∀ x ∈ xs, ∀ y ∈ ys, P (mergeAt p d x y))
    (hx : ∀ x ∈ xs, P x) (hy : ∀ y ∈ ys, P y) : ∀ z ∈ mergeItems p d xs ys, P z := by
  induction xs generalizing ys with
  | nil => simpa [mergeItems] using hy
  | cons x xs ih =>
    cases ys with
    | nil => simpa [mergeItems] using hx
    | cons y ys =>
      rw [mergeItems, List.forall_mem_cons]
      refine ⟨hm x (by simp) y (by simp), ih (fun x' hx' y' hy' => ?_) ?_ ?_⟩
      · exact hm x' (by simp [hx']) y' (by simp [hy'])
      · exact fun x' hx' => hx x' (by simp [hx'])
      · exact fun y' hy' => hy y' (by simp [hy'])

/-! ## The cases of a merge -/

/-- Merging looks inside both trees: they are containers of one kind, above the depth limit, and
the policy lets them be taken apart. -/
inductive LooksInside (p : Policy) (d : Nat) : Tree → Tree → Prop
  | object {fs gs : Fields Tree} (hd : d < maxDepth) (hp : p (object fs) (object gs) = false) :
    LooksInside p d (object fs) (object gs)
  | array {xs ys : List Tree} (hd : d < maxDepth) (hp : p (array xs) (array ys) = false) :
    LooksInside p d (array xs) (array ys)

theorem mergeAt_object {fs gs : Fields Tree} (h : LooksInside p d (object fs) (object gs)) :
    mergeAt p d (object fs) (object gs) = object (mergedFields p (d + 1) fs gs) := by
  cases h with
  | object hd hp =>
    rw [mergeAt.eq_def, if_neg (by simp [isAtom]), if_neg (by simp [hp, hd])]
    rfl

theorem mergeAt_array {xs ys : List Tree} (h : LooksInside p d (array xs) (array ys)) :
    mergeAt p d (array xs) (array ys) = array (mergeItems p (d + 1) xs ys) := by
  cases h with
  | array hd hp => rw [mergeAt.eq_def, if_neg (by simp [isAtom]), if_neg (by simp [hp, hd])]

/-- **Where merging does not look inside, the overlay wins**, without its wrappers. -/
theorem mergeAt_of_not_looksInside {a b : Tree} (h : ¬ LooksInside p d a b) :
    mergeAt p d a b = b.unwrap := by
  rw [mergeAt.eq_def]
  cases hb : b.isAtom with
  | true => rfl
  | false =>
    rw [unwrap_of_isAtom hb, if_neg (by simp), ite_eq_left_iff]
    intro hl
    rw [Bool.not_eq_true, Bool.or_eq_false_iff, decide_eq_false_iff_not, Nat.not_le] at hl
    split
    · exact absurd (.object hl.1 hl.2) h
    · exact absurd (.array hl.1 hl.2) h
    · rfl

theorem mergeAt_of_isAtom {a b : Tree} (h : b.isAtom = true) : mergeAt p d a b = b.unwrap :=
  mergeAt_of_not_looksInside fun hl => by cases hl <;> simp [isAtom] at h

theorem merge_object (fs gs : Fields Tree) :
    (object fs).merge (object gs) = object (mergedFields .never 1 fs gs) := by
  have hl : LooksInside .never 0 (object fs) (object gs) := .object (by decide) rfl
  exact mergeAt_object hl

/-- **Merging into the empty object changes nothing**, not even the order of keys. -/
theorem empty_merge_object (gs : Fields Tree) : empty.merge (object gs) = object gs := by
  rw [empty, merge_object]
  simp [mergedFields, mergeFields, Fields.has]

/-! ## Invariants -/

/-- **Merging keeps hereditary properties.** -/
theorem Hereditary.mergeAt {P : Tree → Prop} (hP : Hereditary P) {a b : Tree} (ha : P a) (hb : P b)
    (d : Nat) : P (mergeAt p d a b) := by
  induction a generalizing b d with
  | object fs ih =>
    by_cases hl : LooksInside p d (.object fs) b
    · cases hl with
      | @object _ gs hd hp =>
        obtain ⟨hdf, hf⟩ := (hP.object fs).1 ha
        obtain ⟨hdg, hg⟩ := (hP.object gs).1 hb
        rw [mergeAt_object (.object hd hp), hP.object]
        refine ⟨distinct_mergedFields hdf hdg,
          forall_mem_mergedFields (fun k x y hx hy => ?_) hf hg⟩
        exact ih k x hx (hf _ hx) (hg _ hy) _
    · exact mergeAt_of_not_looksInside hl ▸ hP.unwrap hb
  | array xs ih =>
    by_cases hl : LooksInside p d (.array xs) b
    · cases hl with
      | array hd hp =>
        rw [mergeAt_array (.array hd hp), hP.array]
        rw [hP.array] at ha hb
        exact forall_mem_mergeItems (fun x hx y hy => ih x hx (ha x hx) (hb y hy) _) ha hb
    · exact mergeAt_of_not_looksInside hl ▸ hP.unwrap hb
  | _ =>
    rw [mergeAt_of_not_looksInside (by rintro ⟨⟩)]
    exact hP.unwrap hb

theorem WellFormed.mergeAt {a b : Tree} (ha : a.WellFormed) (hb : b.WellFormed) (d : Nat) :
    (mergeAt p d a b).WellFormed := hereditary_wellFormed.mergeAt ha hb d

theorem Plain.mergeAt {a b : Tree} (ha : a.Plain) (hb : b.Plain) (d : Nat) :
    (Tree.mergeAt p d a b).Plain := hereditary_plain.mergeAt ha hb d

/-! ## Equality -/

theorem LooksInside.of_same (hp : p.Respectful) {a a' b b' : Tree} (ha : a.WellFormed)
    (ha' : a'.WellFormed) (hb : b.WellFormed) (hb' : b'.WellFormed) (hs : a.same a' = true)
    (ht : b.same b' = true) (h : LooksInside p d a' b') : LooksInside p d a b := by
  have hpe := hp a a' b b' ha ha' hb hb' hs ht
  cases h with
  | object hd hpf =>
    obtain ⟨fs, rfl⟩ := exists_object_of_same hs
    obtain ⟨gs, rfl⟩ := exists_object_of_same ht
    exact .object hd (hpe.trans hpf)
  | array hd hpf =>
    obtain ⟨xs, rfl⟩ := exists_array_of_same hs
    obtain ⟨ys, rfl⟩ := exists_array_of_same ht
    exact .array hd (hpe.trans hpf)

theorem mergeItems_same {xs xs' ys ys' : List Tree}
    (hx : List.Forall₂ (fun x y => x.same y = true) xs xs')
    (hy : List.Forall₂ (fun x y => x.same y = true) ys ys')
    (hm : ∀ x ∈ xs, ∀ x' ∈ xs', ∀ y ∈ ys, ∀ y' ∈ ys', x.same x' = true → y.same y' = true →
      (mergeAt p d x y).same (mergeAt p d x' y') = true) :
    List.Forall₂ (fun x y => x.same y = true) (mergeItems p d xs ys) (mergeItems p d xs' ys') := by
  induction hx generalizing ys ys' with
  | nil => simpa [mergeItems] using hy
  | cons hxx hxs ih =>
    cases hy with
    | nil => simpa [mergeItems] using ⟨hxx, hxs⟩
    | cons hyy hys =>
      rw [mergeItems, mergeItems]
      refine .cons (hm _ (by simp) _ (by simp) _ (by simp) _ (by simp) hxx hyy) (ih hys ?_)
      intro x hx x' hx' y hy y' hy'
      exact hm x (by simp [hx]) x' (by simp [hx']) y (by simp [hy]) y' (by simp [hy'])

theorem rel_get?_mergedFields {R : Tree → Tree → Prop} {k : String} {fs fs' gs gs' : Fields Tree}
    (hf : Option.Rel R (Fields.get? k fs) (Fields.get? k fs'))
    (hg : Option.Rel R (Fields.get? k gs) (Fields.get? k gs'))
    (hm : ∀ x x' y y', Fields.get? k fs = some x → Fields.get? k fs' = some x' →
      Fields.get? k gs = some y → Fields.get? k gs' = some y' → R x x' → R y y' →
      R (mergeAt p d x y) (mergeAt p d x' y')) :
    Option.Rel R (Fields.get? k (mergedFields p d fs gs))
      (Fields.get? k (mergedFields p d fs' gs')) := by
  rw [get?_mergedFields, get?_mergedFields]
  generalize Fields.get? k fs = x at *
  generalize Fields.get? k fs' = x' at *
  generalize Fields.get? k gs = y at *
  generalize Fields.get? k gs' = y' at *
  cases hf with
  | none => simpa using hg
  | some hx =>
    cases hg with
    | none => simpa using hx
    | some hy => simpa using hm _ _ _ _ rfl rfl rfl rfl hx hy

/-- **Merging respects equality**, as long as the policy does. -/
theorem mergeAt_same (hp : p.Respectful) {a a' b b' : Tree} (ha : a.WellFormed)
    (ha' : a'.WellFormed) (hb : b.WellFormed) (hb' : b'.WellFormed) (hs : a.same a' = true)
    (ht : b.same b' = true) (d : Nat) : (mergeAt p d a b).same (mergeAt p d a' b') = true := by
  induction a generalizing a' b b' d with
  | object fs ih =>
    by_cases hl : LooksInside p d a' b'
    · cases hl.of_same hp ha ha' hb hb' hs ht with
      | @object _ gs hd hpf =>
        cases hl with
        | @object fs' gs' hd' hpf' =>
          rw [mergeAt_object (.object hd hpf), mergeAt_object (.object hd' hpf')]
          obtain ⟨hf, -⟩ := wellFormed_object.1 ha
          obtain ⟨hf', -⟩ := wellFormed_object.1 ha'
          obtain ⟨hg, -⟩ := wellFormed_object.1 hb
          obtain ⟨hg', -⟩ := wellFormed_object.1 hb'
          rw [same_object hf hf'] at hs
          rw [same_object hg hg'] at ht
          rw [same_object (distinct_mergedFields hf hg) (distinct_mergedFields hf' hg')]
          refine fun k => rel_get?_mergedFields (hs k) (ht k) ?_
          intro x x' y y' hx hx' hy hy' hxx hyy
          exact ih k x (Fields.mem_of_get? hx) (ha.of_get? hx) (ha'.of_get? hx') (hb.of_get? hy)
            (hb'.of_get? hy') hxx hyy _
        | array => simp [same] at hs
    · have hl' : ¬ LooksInside p d (.object fs) b := fun h => hl (h.of_same hp ha' ha hb' hb
        (same_symm ha ha' hs) (same_symm hb hb' ht))
      rw [mergeAt_of_not_looksInside hl, mergeAt_of_not_looksInside hl']
      exact same_unwrap ht
  | array xs ih =>
    by_cases hl : LooksInside p d a' b'
    · cases hl.of_same hp ha ha' hb hb' hs ht with
      | @array _ ys hd hpf =>
        cases hl with
        | @array xs' ys' hd' hpf' =>
          rw [mergeAt_array (.array hd hpf), mergeAt_array (.array hd' hpf')]
          rw [wellFormed_array] at ha ha' hb hb'
          rw [same_array] at hs ht ⊢
          refine mergeItems_same hs ht fun x hx x' hx' y hy y' hy' hxx hyy => ?_
          exact ih x hx (ha x hx) (ha' x' hx') (hb y hy) (hb' y' hy') hxx hyy _
        | object => simp [same] at hs
    · have hl' : ¬ LooksInside p d (.array xs) b := fun h => hl (h.of_same hp ha' ha hb' hb
        (same_symm ha ha' hs) (same_symm hb hb' ht))
      rw [mergeAt_of_not_looksInside hl, mergeAt_of_not_looksInside hl']
      exact same_unwrap ht
  -- A base without members is looked into in neither merge.
  | _ =>
    have hl : ¬ LooksInside p d a' b' := by
      intro h
      cases h.of_same hp ha ha' hb hb' hs ht
    rw [mergeAt_of_not_looksInside hl, mergeAt_of_not_looksInside (by rintro ⟨⟩)]
    exact same_unwrap ht

end Tree

end ConfigOverlay
