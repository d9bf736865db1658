import ConfigOverlay.Proofs.Decode
import ConfigOverlay.Proofs.Diff
import ConfigOverlay.Replay

/-!
# Writing a diff along paths

A diff is made for merging. Under the policy of replaying it can be written along paths as well:
an array that changes and an object whose tag changes are atoms, and a patch of an object has only
keys that can be written, so it is taken apart. Where diffing does not patch, the overlay is the
target, and it is taken apart only over a source without fields (`imprint_of_unwrap_eq`).

**The imprint of a diff over its source is the target** (`same_imprint_diffAt`), and everything
that is written is a part of the target (`forall_mem_branches_diffAt`).
-/

namespace ConfigOverlay

namespace Replay

open ConfigOverlay.Tree

variable {d : Nat}

/-! ## Patches under the policy -/

theorem not_patches_array {xs : List Tree} {t : Tree} (hne : (array xs).same t = false) :
    ¬ Patches policy d (array xs) t := by
  intro h
  cases h with
  | array hd hp hlen ho => simp [policy, Policy.either, Policy.sequenceIfDifferent, hne] at hp

theorem isAddressable_of_patches {fs gs : Fields Tree}
    (h : Patches policy d (object fs) (object gs)) :
    ∀ k ∈ Fields.keys (overlayFields policy (d + 1) fs gs), isAddressable k = true := by
  cases h with
  | object hd hp hkeys ho =>
    simp only [policy, Policy.either, Policy.unaddressableKeys, Bool.or_eq_false_iff,
      Bool.not_eq_false', List.all_eq_true] at ho
    exact ho.2.2

theorem overlayFields_ne_nil {fs gs : Fields Tree} (hf : fs.Distinct) (hg : gs.Distinct)
    (hkeys : ∀ k ∈ fs.keys, k ∈ gs.keys) (hne : (object fs).same (object gs) = false) :
    overlayFields policy d fs gs ≠ [] := by
  intro hnil
  have hsame : (object fs).same (object gs) = true := by
    rw [same_object hf hg]
    intro k
    have hget := get?_overlayFields (p := policy) (d := d) hf gs k
    rw [hnil, Fields.get?_nil] at hget
    cases hx : Fields.get? k fs with
    | none =>
      cases hy : Fields.get? k gs with
      | none => exact .none
      | some y => simp [hx, hy] at hget
    | some x =>
      have hk := hkeys k (Fields.mem_keys_of_get? hx)
      cases hy : Fields.get? k gs with
      | none => exact absurd hk (Fields.get?_eq_none.1 hy)
      | some y =>
        simp only [hx, hy, Option.bind_some, Option.elim_some] at hget
        rw [Option.rel_some_some]
        by_contra hxy
        simp [hxy] at hget
  rw [hne] at hsame
  cases hsame

theorem splits_of_patches {fs gs : Fields Tree} (hf : fs.Distinct) (hg : gs.Distinct)
    (h : Patches policy d (object fs) (object gs)) (hne : (object fs).same (object gs) = false) :
    (object (overlayFields policy (d + 1) fs gs)).splits = true := by
  have hnil := overlayFields_ne_nil (d := d + 1) hf hg h.mem_keys hne
  exact splits_object.2 ⟨hnil, isAddressable_of_patches h⟩

/-- **Diffs by cases.** What holds of every pair that is not patched, and of a patched pair of
objects when it holds of the values that change, holds of every pair of different trees. -/
theorem diff_induction {motive : Nat → Tree → Tree → Prop}
    (whole : ∀ d s t, ¬ Patches policy d s t → motive d s t)
    (patch : ∀ d (fs gs : Fields Tree), Patches policy d (object fs) (object gs) →
      (object fs).same (object gs) = false →
      (∀ k x y, Fields.get? k fs = some x → Fields.get? k gs = some y → x.same y = false →
        motive (d + 1) x y) →
      motive d (object fs) (object gs))
    {s t : Tree} (hne : s.same t = false) (d : Nat) : motive d s t := by
  induction s generalizing t d with
  | object fs ih =>
    by_cases hp : Patches policy d (.object fs) t
    · obtain ⟨gs, rfl⟩ := hp.exists_object
      refine patch d fs gs hp hne fun k x y hx _ hxy => ?_
      exact ih k x (Fields.mem_of_get? hx) hxy (d + 1)
    · exact whole d _ t hp
  | array xs ih => exact whole d _ t (not_patches_array hne)
  | _ => exact whole d _ t (by rintro ⟨⟩)

/-! ## Targets taken as a whole -/

theorem unwrap_diffAt {p : Policy} {s t : Tree} (ht : t.atomFree = true)
    (h : ¬ Patches p d s t) : (diffAt p d s t).unwrap = t := by
  rcases diffAt_of_not_patches h with he | ⟨he, -⟩
  · rw [he, unwrap_asAtom, unwrap_of_atomFree ht]
  · rw [he, unwrap_of_atomFree ht]

theorem fieldsOrEmpty_eq_nil_of_splits {p : Policy} {s t : Tree} (hs : s.atomFree = true)
    (h : ¬ Patches p d s t) (hsplits : (diffAt p d s t).splits = true) : s.fieldsOrEmpty = [] := by
  refine fieldsOrEmpty_eq_nil hs ?_
  rintro fs rfl
  cases t with
  | object gs =>
    rw [diffAt_object_of_not_patches h] at hsplits
    simp [asAtom, splits] at hsplits
  | _ =>
    rcases diffAt_of_not_patches h with he | ⟨he, -⟩
    all_goals
      rw [he] at hsplits
      simp [asAtom, splits] at hsplits

theorem unwrap_of_splits {t : Tree} (h : t.splits = true) : t.unwrap = t := by
  cases t with
  | object fs => rfl
  | _ => simp [splits] at h

/-- What wraps a tree writes it, where it is not taken apart or over nothing. -/
theorem imprint_of_unwrap_eq {o t base : Tree} (ht : t.Plain) (ho : o.unwrap = t)
    (hbare : o.splits = true → base.fieldsOrEmpty = []) : imprint o base = t := by
  cases hs : o.splits with
  | false => rw [imprint_of_not_splits hs, ho]
  | true =>
    rw [unwrap_of_splits hs] at ho
    rw [ho]
    exact imprint_of_bare ht (hbare hs)

theorem forall_mem_branches_of_unwrap_eq {P : Tree → Prop}
    (hfield : ∀ {fs}, P (object fs) → ∀ f ∈ fs, P f.2) (hunwrap : ∀ {t}, P t → P t.unwrap)
    {o t : Tree} (ho : o.unwrap = t) (hP : P t) :
    ∀ e ∈ branches o, e.1.Addressable ∧ P e.2 := by
  cases hs : o.splits with
  | false =>
    rw [branches_of_not_splits hs, ho]
    simpa [KeyPath.Addressable] using hP
  | true =>
    rw [unwrap_of_splits hs] at ho
    rw [ho]
    exact forall_mem_branches hfield hunwrap hP

/-! ## The imprint of a diff -/

/-- **A patch is written key by key**: the new values over nothing, and the overlays of the changed
ones over the values that they patch. -/
theorem agree_imprintFields {p : Policy} {fs gs bs : Fields Tree} (hs : (object fs).Plain)
    (ht : (object gs).Plain) (hb : (object bs).Plain)
    (hbs : (object bs).same (object fs) = true) (hkeys : ∀ k ∈ fs.keys, k ∈ gs.keys)
    (hchanged : ∀ k x y b, Fields.get? k fs = some x → Fields.get? k gs = some y →
      Fields.get? k bs = some b → b.same x = true → x.same y = false →
      (imprint (diffAt p d x y) b).same y = true) :
    Fields.Agree (fun x y : Tree => x.same y = true)
      (imprintFields (overlayFields p d fs gs) bs) gs := by
  obtain ⟨hdf, -⟩ := plain_object.1 hs
  obtain ⟨hdg, hg⟩ := plain_object.1 ht
  obtain ⟨hdb, -⟩ := plain_object.1 hb
  rw [same_object hdb hdf] at hbs
  intro k
  rw [get?_imprintFields (distinct_overlayFields hdf hdg), get?_overlayFields hdf]
  have hk := hbs k
  -- The base has the keys of the source, so the source decides which of the three cases it is.
  cases hx : Fields.get? k fs with
  | none =>
    rw [hx] at hk
    cases hbk : Fields.get? k bs with
    | some b => simp [hbk] at hk
    | none =>
      cases hy : Fields.get? k gs with
      | none => exact .none
      | some y =>
        have hyp : y.Plain := hereditary_plain.of_get? ht hy
        have hself : imprint y null = y := imprint_of_bare hyp rfl
        simp [hself, same_refl hyp.wellFormed]
  | some x =>
    rw [hx] at hk
    cases hbk : Fields.get? k bs with
    | none => simp [hbk] at hk
    | some b =>
      rw [hbk, Option.rel_some_some] at hk
      cases hy : Fields.get? k gs with
      | none =>
        have := hkeys k (Fields.mem_keys_of_get? hx)
        exact absurd this (Fields.get?_eq_none.1 hy)
      | some y =>
        cases hxy : x.same y with
        | true =>
          have htrans := same_trans (hb.wellFormed.of_get? hbk) (hs.wellFormed.of_get? hx)
            (ht.wellFormed.of_get? hy) hk hxy
          simp [hxy, htrans]
        | false =>
          have hnew := hchanged k x y b hx hy hbk hk hxy
          simp [hxy, hnew]

theorem imprint_diffAt_of_not_patches {p : Policy} {s t base : Tree} (hs : s.Plain) (ht : t.Plain)
    (hb : base.Plain) (hbs : base.same s = true) (hp : ¬ Patches p d s t) :
    imprint (diffAt p d s t) base = t := by
  refine imprint_of_unwrap_eq ht (unwrap_diffAt ht.atomFree hp) fun hsplits => ?_
  have hagree := fieldsOrEmpty_same hb.wellFormed hs.wellFormed hbs
  rw [fieldsOrEmpty_eq_nil_of_splits hs.atomFree hp hsplits] at hagree
  exact Fields.Agree.nil_iff.1 hagree

/-- **Writing a diff over its source gives the target**, up to the order of keys, and so it does
over every tree that equals the source. -/
theorem same_imprint_diffAt {s t base : Tree} (hs : s.Plain) (ht : t.Plain) (hb : base.Plain)
    (hbs : base.same s = true) (hne : s.same t = false) (d : Nat) :
    (imprint (diffAt policy d s t) base).same t = true := by
  refine diff_induction (motive := fun d s t => s.Plain → t.Plain → ∀ base : Tree, base.Plain →
    base.same s = true → (imprint (diffAt policy d s t) base).same t = true) ?_ ?_ hne d hs ht base
    hb hbs
  · intro d s t hp hs ht base hb hbs
    rw [imprint_diffAt_of_not_patches hs ht hb hbs hp]
    exact same_refl ht.wellFormed
  · intro d fs gs hp hne ih hs ht base hb hbs
    obtain ⟨bs, rfl⟩ := exists_object_of_same hbs
    obtain ⟨hdf, -⟩ := plain_object.1 hs
    obtain ⟨hdg, -⟩ := plain_object.1 ht
    obtain ⟨hdb, -⟩ := plain_object.1 hb
    rw [diffAt_object hp, imprint_of_splits (splits_of_patches hdf hdg hp hne),
      fieldsOrEmpty_object, same_object (distinct_imprintFields hdb _) hdg]
    refine agree_imprintFields hs ht hb hbs hp.mem_keys fun k x y b hx hy hbk hbx hxy => ?_
    exact ih k x y hx hy hxy (hereditary_plain.of_get? hs hx) (hereditary_plain.of_get? ht hy) b
      (hereditary_plain.of_get? hb hbk) hbx

/-- **What is written of a diff are parts of the target**, at paths that can be written. -/
theorem forall_mem_branches_diffAt {P : Tree → Prop}
    (hfield : ∀ {fs}, P (object fs) → ∀ f ∈ fs, P f.2) (hunwrap : ∀ {t}, P t → P t.unwrap)
    {s t : Tree} (hs : s.WellFormed) (ht : t.Plain) (hP : P t) (hne : s.same t = false) (d : Nat) :
    ∀ e ∈ branches (diffAt policy d s t), e.1.Addressable ∧ P e.2 := by
  refine diff_induction (motive := fun d s t => s.WellFormed → t.Plain → P t →
    ∀ e ∈ branches (diffAt policy d s t), e.1.Addressable ∧ P e.2) ?_ ?_ hne d hs ht hP
  · intro d s t hp _ ht hP
    exact forall_mem_branches_of_unwrap_eq hfield hunwrap (unwrap_diffAt ht.atomFree hp) hP
  · intro d fs gs hp hne ih hs ht hP
    obtain ⟨hdf, -⟩ := wellFormed_object.1 hs
    obtain ⟨hdg, -⟩ := plain_object.1 ht
    have hof : ∀ k y, Fields.get? k gs = some y → P y :=
      fun k y hy => hfield hP _ (Fields.mem_of_get? hy)
    rw [diffAt_object hp, branches_of_splits (splits_of_patches hdf hdg hp hne),
      forall_mem_fieldBranches]
    intro f hf
    have hkey := isAddressable_of_patches hp f.1 (Fields.mem_keys_of_mem hf)
    have hleaves : ∀ e ∈ branches f.2, e.1.Addressable ∧ P e.2 := by
      refine forall_mem_overlayFields (P := fun x => ∀ e ∈ branches x, e.1.Addressable ∧ P e.2)
        hdf hdg (fun k y _ hy => forall_mem_branches hfield hunwrap (hof k y hy)) ?_ f hf
      intro k x y hx hy hxy
      exact ih k x y hx hy hxy (hs.of_get? hx) (hereditary_plain.of_get? ht hy) (hof k y hy)
    exact fun e he => ⟨List.forall_mem_cons.2 ⟨hkey, (hleaves e he).1⟩, (hleaves e he).2⟩

end Replay

end ConfigOverlay
