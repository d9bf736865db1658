import ConfigOverlay.Proofs.Assign
import ConfigOverlay.Proofs.Justified
import ConfigOverlay.Proofs.RoundTrip

/-!
# The order of keys never matters

Trees that differ in nothing but the order of their keys are equal, and this file shows that
merging, diffing and assigning cannot tell them apart.

**Policies.** The named policies respect equality, and so does any combination of them
(`Policy.Named.respectful`).

**Diffs.** The overlay lists its keys in the order of the target and then in that of the source,
leaves out what is equal, cuts arrays where nothing changes any more, and asks the policy about
itself. All of this agrees for equal pairs, level by level (`diffAt_same`): they are patched alike,
with equal patches, and copied or wrapped alike otherwise.

**Chains.** So a diff merges into any tree that equals its source, and the diffs of successive
snapshots lead from any tree that equals the first to one that equals the last
(`foldl_mergeWith_successiveDiffs`).
-/

namespace ConfigOverlay

open ConfigOverlay.Tree

/-! ## Policies that respect equality -/

theorem Tree.get?_same {s t : Tree} (hs : s.WellFormed) (ht : t.WellFormed)
    (h : s.same t = true) (k : String) :
    Option.Rel (fun x y : Tree => x.same y = true) (s.get? k) (t.get? k) := by
  cases s with
  | object fs =>
    cases t with
    | object gs => exact (same_object (wellFormed_object.1 hs).1 (wellFormed_object.1 ht).1).1 h k
    | _ => simp [same] at h
  | _ => cases t <;> first | exact .none | simp [same] at h

theorem Tree.WellFormed.get? {t x : Tree} (ht : t.WellFormed) {k : String}
    (h : t.get? k = some x) : x.WellFormed := by
  cases t with
  | object fs => exact ht.of_get? h
  | _ => cases h

namespace Policy

variable {p q : Policy}

/-- What holds of a pair has to hold of its equals only: equality goes both ways. -/
theorem respectful_of_imp
    (h : ∀ a a' b b' : Tree, a.WellFormed → a'.WellFormed → b.WellFormed → b'.WellFormed →
      a.same a' = true → b.same b' = true → p a' b' = true → p a b = true) : p.Respectful := by
  intro a a' b b' ha ha' hb hb' hs ht
  rw [Bool.eq_iff_iff]
  exact ⟨h a' a b' b ha' ha hb' hb (same_symm ha ha' hs) (same_symm hb hb' ht),
    h a a' b b' ha ha' hb hb' hs ht⟩

theorem typeTagChanged_respectful : typeTagChanged.Respectful := by
  intro a a' b b' ha ha' hb hb' hs ht
  have hsource := get?_same ha ha' hs tagKey
  have htarget := get?_same hb hb' ht tagKey
  rw [typeTagChanged, typeTagChanged]
  generalize hx : a.get? tagKey = x at hsource ⊢
  generalize hx' : a'.get? tagKey = x' at hsource ⊢
  generalize hy : b.get? tagKey = y at htarget ⊢
  generalize hy' : b'.get? tagKey = y' at htarget ⊢
  cases hsource with
  | none => rfl
  | some hxx =>
    cases htarget with
    | none => rfl
    | some hyy =>
      have htags := same_congr (ha.get? hx) (ha'.get? hx') (hb.get? hy) (hb'.get? hy') hxx hyy
      exact congrArg (!·) htags

theorem sequenceIfDifferent_respectful : sequenceIfDifferent.Respectful := by
  refine respectful_of_imp fun a a' b b' ha ha' hb hb' hs ht h => ?_
  cases b' with
  | array ys' =>
    obtain ⟨ys, rfl⟩ := exists_array_of_same ht
    rw [sequenceIfDifferent] at h ⊢
    rwa [same_congr ha ha' hb hb' hs ht]
  | _ => cases h

theorem arrayGrowth_respectful : arrayGrowth.Respectful := by
  refine respectful_of_imp fun a a' b b' _ _ _ _ hs ht h => ?_
  unfold arrayGrowth at h
  split at h
  · obtain ⟨xs, rfl⟩ := exists_array_of_same hs
    obtain ⟨ys, rfl⟩ := exists_array_of_same ht
    rw [same_array] at hs ht
    rwa [arrayGrowth, hs.length_eq, ht.length_eq]
  · cases h

theorem unaddressableKeys_respectful : unaddressableKeys.Respectful := by
  refine respectful_of_imp fun a a' b b' _ _ hb hb' _ ht h => ?_
  cases b' with
  | object gs' =>
    obtain ⟨gs, rfl⟩ := exists_object_of_same ht
    rw [same_object (wellFormed_object.1 hb).1 (wellFormed_object.1 hb').1] at ht
    simpa only [unaddressableKeys, Bool.not_eq_true', List.all_eq_false, ht.mem_keys_iff] using h
  | _ => cases h

theorem Respectful.either (hp : p.Respectful) (hq : q.Respectful) :
    (p.either q).Respectful := by
  intro a a' b b' ha ha' hb hb' hs ht
  rw [Policy.either, Policy.either, hp a a' b b' ha ha' hb hb' hs ht,
    hq a a' b b' ha ha' hb hb' hs ht]

/-- The named policies and their combinations. -/
inductive Named : Policy → Prop
  | never : Named never
  | typeTagChanged : Named typeTagChanged
  | sequenceIfDifferent : Named sequenceIfDifferent
  | arrayGrowth : Named arrayGrowth
  | unaddressableKeys : Named unaddressableKeys
  | either {p q : Policy} (hp : Named p) (hq : Named q) : Named (p.either q)

/-- **No named policy looks at the order of keys.** -/
theorem Named.respectful (h : p.Named) : p.Respectful := by
  induction h with
  | never => exact never_respectful
  | typeTagChanged => exact typeTagChanged_respectful
  | sequenceIfDifferent => exact sequenceIfDifferent_respectful
  | arrayGrowth => exact arrayGrowth_respectful
  | unaddressableKeys => exact unaddressableKeys_respectful
  | either _ _ hp hq => exact hp.either hq

end Policy

namespace Tree

variable {p q : Policy} {d : Nat}

/-! ## Patches of equal pairs -/

theorem WellFormed.overlayFields {fs gs : Fields Tree} (hf : (object fs).WellFormed)
    (hg : (object gs).WellFormed) (d : Nat) : (object (overlayFields p d fs gs)).WellFormed := by
  obtain ⟨hdf, -⟩ := wellFormed_object.1 hf
  obtain ⟨hdg, -⟩ := wellFormed_object.1 hg
  rw [wellFormed_object]
  exact ⟨distinct_overlayFields hdf hdg, forall_mem_overlayFields hdf hdg
    (fun k y _ hy => hg.of_get? hy) fun k x y hx hy _ => (hf.of_get? hx).diffAt (hg.of_get? hy) d⟩

theorem WellFormed.diffItems {xs ys : List Tree} (hx : (array xs).WellFormed)
    (hy : (array ys).WellFormed) (d : Nat) : (array (diffItems p d xs ys)).WellFormed := by
  rw [wellFormed_array] at hx hy ⊢
  exact forall_mem_diffItems (fun x hxm y hym => (hx x hxm).diffAt (hy y hym) d) hy

theorem same_asAtom {s t : Tree} (h : s.same t = true) : s.asAtom.same t.asAtom = true := by
  cases s with
  | atom s =>
    cases t with
    | atom t => exact h
    | _ => simp [same] at h
  | _ => cases t <;> simp_all [asAtom, same]

theorem agree_overlayFields {fs fs' gs gs' : Fields Tree} (hf : (object fs).WellFormed)
    (hf' : (object fs').WellFormed) (hg : (object gs).WellFormed) (hg' : (object gs').WellFormed)
    (hs : Fields.Agree (fun x y => x.same y = true) fs fs')
    (ht : Fields.Agree (fun x y => x.same y = true) gs gs')
    (hd : ∀ k x x' y y', Fields.get? k fs = some x → Fields.get? k fs' = some x' →
      Fields.get? k gs = some y → Fields.get? k gs' = some y' → x.same x' = true →
      y.same y' = true → (diffAt p d x y).same (diffAt p d x' y') = true) :
    Fields.Agree (fun x y => x.same y = true) (overlayFields p d fs gs)
      (overlayFields p d fs' gs') := by
  intro k
  have hsource := hs k
  have htarget := ht k
  rw [get?_overlayFields (wellFormed_object.1 hf).1, get?_overlayFields (wellFormed_object.1 hf').1]
  generalize hx : Fields.get? k fs = x at hsource ⊢
  generalize hx' : Fields.get? k fs' = x' at hsource ⊢
  generalize hy : Fields.get? k gs = y at htarget ⊢
  generalize hy' : Fields.get? k gs' = y' at htarget ⊢
  cases htarget with
  | none => simp
  | @some y y' hyy =>
    cases hsource with
    | none => simpa using hyy
    | @some x x' hxx =>
      have hxy : x.same y = x'.same y' :=
        same_congr (hf.of_get? hx) (hf'.of_get? hx') (hg.of_get? hy) (hg'.of_get? hy') hxx hyy
      cases h : x'.same y' with
      | true => simp [hxy, h]
      | false => simpa [hxy, h] using hd k x x' y y' hx hx' hy hy' hxx hyy

theorem diffItems_same {xs xs' ys ys' : List Tree} (hxs : (array xs).WellFormed)
    (hxs' : (array xs').WellFormed) (hys : (array ys).WellFormed) (hys' : (array ys').WellFormed)
    (hs : List.Forall₂ (fun x y => x.same y = true) xs xs')
    (ht : List.Forall₂ (fun x y => x.same y = true) ys ys')
    (hd : ∀ x ∈ xs, ∀ x' ∈ xs', ∀ y ∈ ys, ∀ y' ∈ ys', x.same x' = true → y.same y' = true →
      (diffAt p d x y).same (diffAt p d x' y') = true) :
    List.Forall₂ (fun x y => x.same y = true) (diffItems p d xs ys) (diffItems p d xs' ys') := by
  induction hs generalizing ys ys' with
  | nil => simpa [diffItems] using ht
  | @cons x x' xs xs' hxx hs ih =>
    cases ht with
    | nil => simp [diffItems]
    | @cons y y' ys ys' hyy ht =>
      -- Both walks stop at the same place.
      have hstop : sameItems (x :: xs) (y :: ys) = sameItems (x' :: xs') (y' :: ys') := by
        have h := same_congr hxs hxs' hys hys' (same_array.2 (.cons hxx hs))
          (same_array.2 (.cons hyy ht))
        rwa [same, same] at h
      rw [wellFormed_array, List.forall_mem_cons] at hxs hxs' hys hys'
      rw [diffItems, diffItems, hstop]
      split_ifs
      · exact .nil
      · have hfirst := hd x (by simp) x' (by simp) y (by simp) y' (by simp) hxx hyy
        refine .cons hfirst (ih ?_ ?_ ?_ ?_ ht ?_)
        · exact wellFormed_array.2 hxs.2
        · exact wellFormed_array.2 hxs'.2
        · exact wellFormed_array.2 hys.2
        · exact wellFormed_array.2 hys'.2
        · intro u hu u' hu' v hv v' hv'
          exact hd u (by simp [hu]) u' (by simp [hu']) v (by simp [hv]) v' (by simp [hv'])

theorem patches_object_iff {fs gs : Fields Tree} :
    Patches p d (object fs) (object gs) ↔ d < maxDepth ∧ p (object fs) (object gs) = false ∧
      (∀ k ∈ fs.keys, k ∈ gs.keys) ∧
      p (object fs) (object (overlayFields p (d + 1) fs gs)) = false := by
  constructor
  · rintro (⟨hd, hp, hkeys, ho⟩ | _)
    exact ⟨hd, hp, hkeys, ho⟩
  · rintro ⟨hd, hp, hkeys, ho⟩
    exact .object hd hp hkeys ho

theorem patches_array_iff {xs ys : List Tree} :
    Patches p d (array xs) (array ys) ↔ d < maxDepth ∧ p (array xs) (array ys) = false ∧
      xs.length ≤ ys.length ∧ p (array xs) (array (diffItems p (d + 1) xs ys)) = false := by
  constructor
  · rintro (_ | ⟨hd, hp, hlen, ho⟩)
    exact ⟨hd, hp, hlen, ho⟩
  · rintro ⟨hd, hp, hlen, ho⟩
    exact .array hd hp hlen ho

/-! ## Diffs of equal pairs -/

/-- A container that stands too deep, or that the policy keeps together with its target, has the
target as an atom for its overlay. -/
theorem diffAt_of_isContainer {s t : Tree} (hs : s.IsContainer)
    (hl : ¬ (d < maxDepth ∧ p s t = false)) : diffAt p d s t = t.asAtom := by
  have hleaf : (decide (maxDepth ≤ d) || p s t) = true := by
    rw [Bool.or_eq_true, decide_eq_true_eq]
    by_contra hn
    rw [not_or, Nat.not_le, Bool.not_eq_true] at hn
    exact hl hn
  rw [diffAt.eq_def]
  cases t with
  | atom t => rfl
  | _ =>
    rw [if_neg (by simp [isAtom])]
    cases hs with
    | object fs => exact if_pos hleaf
    | array xs => exact if_pos hleaf

theorem sameContainer_of_same {s t : Tree} (hs : s.IsContainer) (h : s.same t = true) :
    SameContainer s t := by
  cases hs with
  | object fs =>
    cases t with
    | object gs => exact .object fs gs
    | _ => simp [same] at h
  | array xs =>
    cases t with
    | array ys => exact .array xs ys
    | _ => simp [same] at h

theorem SameContainer.of_same {s s' t t' : Tree} (hc : SameContainer s t) (h : s.same s' = true)
    (h' : t.same t' = true) : SameContainer s' t' :=
  (sameContainer_of_same hc.isContainer h).symm.trans
    (hc.trans (sameContainer_of_same hc.symm.isContainer h'))

theorem diffAt_object_same (hp : p.Respectful) {fs fs' gs gs' : Fields Tree}
    (hf : (object fs).WellFormed) (hf' : (object fs').WellFormed) (hg : (object gs).WellFormed)
    (hg' : (object gs').WellFormed) (h : (object fs).same (object fs') = true)
    (h' : (object gs).same (object gs') = true)
    (ho : (object (overlayFields p (d + 1) fs gs)).same
      (object (overlayFields p (d + 1) fs' gs')) = true) :
    (diffAt p d (object fs) (object gs)).same (diffAt p d (object fs') (object gs')) = true := by
  have hkeys := Fields.Agree.mem_keys_iff
    ((same_object (wellFormed_object.1 hf).1 (wellFormed_object.1 hf').1).1 h)
  have hkeys' := Fields.Agree.mem_keys_iff
    ((same_object (wellFormed_object.1 hg).1 (wellFormed_object.1 hg').1).1 h')
  have hw := hf.overlayFields (p := p) hg (d + 1)
  have hw' := hf'.overlayFields (p := p) hg' (d + 1)
  have hpatch : Patches p d (object fs) (object gs) ↔ Patches p d (object fs') (object gs') := by
    simp only [patches_object_iff, hp _ _ _ _ hf hf' hg hg' h h', hp _ _ _ _ hf hf' hw hw' h ho,
      hkeys, hkeys']
  by_cases hpat : Patches p d (object fs) (object gs)
  · rw [diffAt_object hpat, diffAt_object (hpatch.1 hpat)]
    exact ho
  · rw [diffAt_object_of_not_patches hpat, diffAt_object_of_not_patches (mt hpatch.2 hpat)]
    exact same_asAtom h'

theorem diffAt_array_same (hp : p.Respectful) {xs xs' ys ys' : List Tree}
    (hx : (array xs).WellFormed) (hx' : (array xs').WellFormed) (hy : (array ys).WellFormed)
    (hy' : (array ys').WellFormed) (h : (array xs).same (array xs') = true)
    (h' : (array ys).same (array ys') = true)
    (ho : (array (diffItems p (d + 1) xs ys)).same (array (diffItems p (d + 1) xs' ys')) = true) :
    (diffAt p d (array xs) (array ys)).same (diffAt p d (array xs') (array ys')) = true := by
  have hlen := (same_array.1 h).length_eq
  have hlen' := (same_array.1 h').length_eq
  have hw := hx.diffItems (p := p) hy (d + 1)
  have hw' := hx'.diffItems (p := p) hy' (d + 1)
  have hpatch : Patches p d (array xs) (array ys) ↔ Patches p d (array xs') (array ys') := by
    simp only [patches_array_iff, hp _ _ _ _ hx hx' hy hy' h h', hp _ _ _ _ hx hx' hw hw' h ho,
      hlen, hlen']
  by_cases hpat : Patches p d (array xs) (array ys)
  · rw [diffAt_array hpat, diffAt_array (hpatch.1 hpat)]
    exact ho
  · rw [diffAt_array_of_not_patches hpat, diffAt_array_of_not_patches (mt hpatch.2 hpat)]
    exact same_asAtom h'

theorem diffAt_same_of_not_sameContainer (hp : p.Respectful) {s s' t t' : Tree}
    (hs : s.WellFormed) (hs' : s'.WellFormed) (ht : t.WellFormed) (ht' : t'.WellFormed)
    (h : s.same s' = true) (h' : t.same t' = true) (hn : ¬ SameContainer s t) (d : Nat) :
    (diffAt p d s t).same (diffAt p d s' t') = true := by
  have hpe := hp s s' t t' hs hs' ht ht' h h'
  have hn' : ¬ SameContainer s' t' := fun hc =>
    hn (hc.of_same (same_symm hs hs' h) (same_symm ht ht' h'))
  by_cases hl : s.IsContainer → d < maxDepth ∧ p s t = false
  · have hl' : s'.IsContainer → d < maxDepth ∧ p s' t' = false := fun hc =>
      hpe ▸ hl (sameContainer_of_same hc (same_symm hs hs' h)).symm.isContainer
    rw [diffAt_of_not_sameContainer hn hl, diffAt_of_not_sameContainer hn' hl']
    exact h'
  · obtain ⟨hc, hleaf⟩ := Classical.not_imp.1 hl
    have hc' : s'.IsContainer := (sameContainer_of_same hc h).symm.isContainer
    rw [diffAt_of_isContainer hc hleaf, diffAt_of_isContainer hc' (hpe ▸ hleaf)]
    exact same_asAtom h'

/-- **Diffing respects equality**, as long as the policy does. -/
theorem diffAt_same (hp : p.Respectful) {s s' t t' : Tree} (hs : s.WellFormed)
    (hs' : s'.WellFormed) (ht : t.WellFormed) (ht' : t'.WellFormed) (h : s.same s' = true)
    (h' : t.same t' = true) (d : Nat) : (diffAt p d s t).same (diffAt p d s' t') = true := by
  induction s generalizing s' t t' d with
  | object fs ih =>
    by_cases hc : SameContainer (.object fs) t
    · cases hc with
      | object _ gs =>
        -- The other pair holds objects too, and their patches agree key by key.
        obtain ⟨fs', rfl⟩ := exists_object_of_same (same_symm hs hs' h)
        obtain ⟨gs', rfl⟩ := exists_object_of_same (same_symm ht ht' h')
        obtain ⟨hdf, -⟩ := wellFormed_object.1 hs
        obtain ⟨hdf', -⟩ := wellFormed_object.1 hs'
        obtain ⟨hdg, -⟩ := wellFormed_object.1 ht
        obtain ⟨hdg', -⟩ := wellFormed_object.1 ht'
        refine diffAt_object_same hp hs hs' ht ht' h h' ?_
        rw [same_object (distinct_overlayFields hdf hdg) (distinct_overlayFields hdf' hdg')]
        rw [same_object hdf hdf'] at h
        rw [same_object hdg hdg'] at h'
        refine agree_overlayFields hs hs' ht ht' h h' fun k x x' y y' hx hx' hy hy' hxx hyy => ?_
        exact ih k x (Fields.mem_of_get? hx) (hs.of_get? hx) (hs'.of_get? hx') (ht.of_get? hy)
          (ht'.of_get? hy') hxx hyy _
    · exact diffAt_same_of_not_sameContainer hp hs hs' ht ht' h h' hc d
  | array xs ih =>
    by_cases hc : SameContainer (.array xs) t
    · cases hc with
      | array _ ys =>
        obtain ⟨xs', rfl⟩ := exists_array_of_same (same_symm hs hs' h)
        obtain ⟨ys', rfl⟩ := exists_array_of_same (same_symm ht ht' h')
        refine diffAt_array_same hp hs hs' ht ht' h h' ?_
        rw [same_array] at h h' ⊢
        refine diffItems_same hs hs' ht ht' h h' fun x hx x' hx' y hy y' hy' hxx hyy => ?_
        rw [wellFormed_array] at hs hs' ht ht'
        exact ih x hx (hs x hx) (hs' x' hx') (ht y hy) (ht' y' hy') hxx hyy _
    · exact diffAt_same_of_not_sameContainer hp hs hs' ht ht' h h' hc d
  | _ => exact diffAt_same_of_not_sameContainer hp hs hs' ht ht' h h' (by rintro ⟨⟩) d

/-! ## Chains of snapshots -/

/-- The diffs from every snapshot to the next one. -/
def successiveDiffs (p : Policy) : Tree → List Tree → List Tree
  | _, [] => []
  | t, next :: later => diffWith p t next :: successiveDiffs p next later

/-- **A diff leads to its target from anything that equals its source.** -/
theorem mergeWith_diffWith_of_same (hq : q.Respectful)
    (hqp : ∀ x y, x.WellFormed → y.WellFormed → q x y = true → p x y = true)
    {base source target : Tree} (hb : base.WellFormed) (hs : source.WellFormed) (ht : target.Plain)
    (h : base.same source = true) :
    (mergeWith q base (diffWith p source target)).same target = true := by
  have hd : (diffWith p source target).WellFormed := hs.diffAt ht.wellFormed 0
  have hbase : (mergeWith q base (diffWith p source target)).same
      (mergeWith q source (diffWith p source target)) = true :=
    mergeAt_same hq hb hs hd hd h (same_refl hd) 0
  have htarget : (mergeWith q source (diffWith p source target)).same target = true :=
    (reaches_mergeAt_diffAt hqp hs ht.wellFormed 0).2 ht.atomFree
  exact same_trans (hb.mergeAt hd 0) (hs.mergeAt hd 0) ht.wellFormed hbase htarget

/-- **The diffs of successive snapshots lead to the last one**, from anything that equals the
first. -/
theorem foldl_mergeWith_successiveDiffs (hq : q.Respectful)
    (hqp : ∀ x y, x.WellFormed → y.WellFormed → q x y = true → p x y = true)
    {base first : Tree} {later : List Tree} (hb : base.WellFormed) (hf : first.WellFormed)
    (hl : ∀ t ∈ later, t.Plain) (h : base.same first = true) :
    ((successiveDiffs p first later).foldl (mergeWith q) base).same
      (later.getLastD first) = true := by
  induction later generalizing base first with
  | nil => exact h
  | cons next later ih =>
    rw [List.forall_mem_cons] at hl
    rw [successiveDiffs, List.foldl_cons, List.getLastD_cons]
    have hd : (diffWith p first next).WellFormed := hf.diffAt hl.1.wellFormed 0
    exact ih (hb.mergeAt hd 0) hl.1.wellFormed hl.2
      (mergeWith_diffWith_of_same hq hqp hb hf hl.1 h)

/-- **The order of keys never changes a result.** Under a named policy, or any combination of them,
merging, diffing and assigning make equal results of equal trees. So the diffs of successive
snapshots, merged one after the other under the policy or under none into anything that equals the
first, give what equals the last. -/
theorem results_same (hp : p.Named) :
    (∀ a a' b b' : Tree, a.WellFormed → a'.WellFormed → b.WellFormed → b'.WellFormed →
      a.same a' = true → b.same b' = true →
      (mergeWith p a b).same (mergeWith p a' b') = true ∧
      (diffWith p a b).same (diffWith p a' b') = true ∧
      ∀ path, (assign path b a).same (assign path b' a') = true) ∧
    ∀ q : Policy, q = p ∨ q = .never → ∀ (first : Tree) (later : List Tree), first.Plain →
      (∀ t ∈ later, t.Plain) → ∀ base : Tree, base.WellFormed → base.same first = true →
      ((successiveDiffs p first later).foldl (mergeWith q) base).same
        (later.getLastD first) = true := by
  constructor
  · intro a a' b b' ha ha' hb hb' h h'
    exact ⟨mergeAt_same hp.respectful ha ha' hb hb' h h' 0,
      diffAt_same hp.respectful ha ha' hb hb' h h' 0, assign_same ha ha' h' h⟩
  · rintro q (rfl | rfl) first later hf hl base hb h
    · exact foldl_mergeWith_successiveDiffs hp.respectful (fun _ _ _ _ hxy => hxy) hb hf.wellFormed
        hl h
    · exact foldl_mergeWith_successiveDiffs Policy.never_respectful (fun _ _ _ _ hxy => nomatch hxy)
        hb hf.wellFormed hl h

/-- A server is described in two orders of keys; later its tag changes and a list grows. -/
theorem results_same_server :
    let p := Policy.either .typeTagChanged (.either .sequenceIfDifferent .unaddressableKeys)
    let first := object [("list", array [null]),
      ("server", object [("_type_", text "tcp"), ("port", null)])]
    let base := object [("server", object [("port", null), ("_type_", text "tcp")]),
      ("list", array [null])]
    let overlay := object [("list", atom (array [])), ("server", object [("port", null)])]
    let overlay' := object [("server", object [("port", null)]), ("list", atom (array []))]
    let second := object [("server", object [("_type_", text "unix")]), ("list", array [null])]
    let third := object [("list", array [null, bool true]), ("a.b", null),
      ("server", object [("_type_", text "unix"), ("path", text "/run")])]
    p.Named ∧ first.Plain ∧ base.WellFormed ∧ overlay.WellFormed ∧ overlay'.WellFormed ∧
      second.Plain ∧ third.Plain ∧ base.same first = true ∧ overlay.same overlay' = true ∧
      (mergeWith p base overlay).same (mergeWith p first overlay') = true ∧
      (diffWith p base overlay).same (diffWith p first overlay') = true ∧
      (assign ["server", "tls"] overlay base).same
        (assign ["server", "tls"] overlay' first) = true ∧
      ((successiveDiffs p first [second, third]).foldl (mergeWith p) base).same third = true ∧
      ((successiveDiffs p first [second, third]).foldl merge base).same third = true := by
  intro p first base overlay overlay' second third
  have hp : p.Named := .either .typeTagChanged (.either .sequenceIfDifferent .unaddressableKeys)
  have hf : first.Plain := ⟨by simp [first, Fields.Distinct, Fields.keys], by decide⟩
  have hb : base.WellFormed := by simp [base, Fields.Distinct, Fields.keys]
  have ho : overlay.WellFormed := by simp [overlay, Fields.Distinct, Fields.keys]
  have ho' : overlay'.WellFormed := by simp [overlay', Fields.Distinct, Fields.keys]
  have hs : second.Plain := ⟨by simp [second, Fields.Distinct, Fields.keys], by decide⟩
  have ht : third.Plain := ⟨by simp [third, Fields.Distinct, Fields.keys], by decide⟩
  have hbf : base.same first = true := by decide
  have hoo : overlay.same overlay' = true := by decide
  have hl : ∀ t ∈ [second, third], t.Plain := by simp [hs, ht]
  obtain ⟨hpair, hchain⟩ := results_same hp
  obtain ⟨hm, hd, ha⟩ := hpair base first overlay overlay' hb hf.wellFormed ho ho' hbf hoo
  exact ⟨hp, hf, hb, ho, ho', hs, ht, hbf, hoo, hm, hd, ha _,
    hchain p (.inl rfl) first _ hf hl base hb hbf,
    hchain .never (.inr rfl) first _ hf hl base hb hbf⟩

end Tree

end ConfigOverlay
