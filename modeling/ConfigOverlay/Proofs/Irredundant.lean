import ConfigOverlay.Proofs.Diff

/-!
# Nothing in a diff can be left out

**Theorem (`not_same_merge_of_shrinks`).** Delete one key of one object of a diff, or the last
item of one array, wherever it stands: what is left does not merge into the source to the target
any more.

`Shrinks t t'` says that `t'` is `t` after one such deletion. The proof compares what the diff
wrote at the place of the deletion with what a merge makes of the place now:

* below a copied value or an atom, the merge takes over the rest, and a shrunk tree never equals
  the tree it comes from (`Shrinks.not_same`);
* a key of a patched object stands there because its value is new or changes, so without it the
  merge has no value there, or one that differs from the target's;
* a patched array stops at the last change, so without its last item the merge is too short, or
  keeps an item that differs from the target's.

Neither the policy of the diff nor the depth limit matters: where the diff patched, the merge
looks inside, and where it copied, the merge looks inside neither the copy nor what is left of it.
-/

namespace ConfigOverlay.Tree

variable {p : Policy} {d : Nat}

/-! ## Shrunk trees -/

/-- The second tree is the first without one key of one object or without the last item of one
array, at any place, also inside atoms. -/
inductive Shrinks : Tree → Tree → Prop
  | key (before after : Fields Tree) (f : String × Tree) :
    Shrinks (object (before ++ f :: after)) (object (before ++ after))
  | last (xs : List Tree) (x : Tree) : Shrinks (array (xs ++ [x])) (array xs)
  | field (before after : Fields Tree) (k : String) {x x' : Tree} (h : Shrinks x x') :
    Shrinks (object (before ++ (k, x) :: after)) (object (before ++ (k, x') :: after))
  | item (before after : List Tree) {x x' : Tree} (h : Shrinks x x') :
    Shrinks (array (before ++ x :: after)) (array (before ++ x' :: after))
  | content {t t' : Tree} (h : Shrinks t t') : Shrinks (atom t) (atom t')

theorem Shrinks.hereditary {P : Tree → Prop} (hP : Hereditary P)
    (hatom : ∀ t t', P (atom t) → P t' → P (atom t')) {t t' : Tree} (h : Shrinks t t')
    (ht : P t) : P t' := by
  induction h with
  | key before after f =>
    rw [hP.object] at ht ⊢
    have hsub : (before ++ after).Sublist (before ++ f :: after) :=
      (List.Sublist.refl before).append (List.sublist_cons_self f after)
    exact ⟨ht.1.sublist (hsub.map Prod.fst), fun g hg => ht.2 g (hsub.subset hg)⟩
  | last xs x =>
    rw [hP.array] at ht ⊢
    exact fun y hy => ht y (List.mem_append_left _ hy)
  | field before after k h ih =>
    rw [hP.object] at ht ⊢
    obtain ⟨hd, hf⟩ := ht
    simp only [List.forall_mem_append, List.forall_mem_cons] at hf ⊢
    refine ⟨?_, hf.1, ih hf.2.1, hf.2.2⟩
    simpa only [Fields.Distinct, Fields.keys, List.map_append, List.map_cons] using hd
  | item before after h ih =>
    rw [hP.array] at ht ⊢
    simp only [List.forall_mem_append, List.forall_mem_cons] at ht ⊢
    exact ⟨ht.1, ih ht.2.1, ht.2.2⟩
  | content h ih => exact hatom _ _ ht (ih (hP.content _ ht))

theorem Shrinks.wellFormed {t t' : Tree} (h : Shrinks t t') (ht : t.WellFormed) :
    t'.WellFormed :=
  h.hereditary hereditary_wellFormed (fun _ _ _ ht' => wellFormed_atom.2 ht') ht

theorem Shrinks.plain {t t' : Tree} (h : Shrinks t t') (ht : t.Plain) : t'.Plain :=
  h.hereditary hereditary_plain (fun t _ ha _ => absurd ha (not_plain_atom t)) ht

theorem not_mem_keys_of_distinct {before after : Fields Tree} {f : String × Tree}
    (h : Fields.Distinct (before ++ f :: after)) : f.1 ∉ Fields.keys (before ++ after) := by
  have hp : Fields.Distinct (f :: (before ++ after)) :=
    (List.perm_middle.map Prod.fst).nodup_iff.1 h
  exact (Fields.distinct_cons.1 hp).1

/-- **Shrinking an object** takes one of its keys away or shrinks the value there. -/
theorem Shrinks.of_object {fs gs : Fields Tree} (hf : fs.Distinct)
    (h : Shrinks (object fs) (object gs)) :
    ∃ k x, Fields.get? k fs = some x ∧ ∀ x', Fields.get? k gs = some x' → Shrinks x x' := by
  cases h with
  | key before after f =>
    refine ⟨f.1, f.2, hf.get?_of_mem (by simp), fun x' hx' => ?_⟩
    rw [Fields.get?_eq_none.2 (not_mem_keys_of_distinct hf)] at hx'
    cases hx'
  | @field before after k x x' h =>
    refine ⟨k, x, hf.get?_of_mem (by simp), fun y hy => ?_⟩
    have hb := Fields.get?_eq_none.2 (not_mem_keys_of_distinct hf)
    rw [Fields.get?_append, Option.or_eq_none_iff] at hb
    rw [Fields.get?_append, hb.1, Fields.get?_cons, if_pos rfl] at hy
    cases hy
    exact h

/-- **Shrinking an array** takes its only item away, shrinks its first item, or shrinks what
follows. -/
theorem Shrinks.of_array_cons {x : Tree} {xs : List Tree} {t' : Tree}
    (h : Shrinks (array (x :: xs)) t') :
    (xs = [] ∧ t' = array []) ∨ (∃ x', Shrinks x x' ∧ t' = array (x' :: xs)) ∨
      ∃ xs', Shrinks (array xs) (array xs') ∧ t' = array (x :: xs') := by
  generalize ht : array (x :: xs) = t at h
  cases h with
  | last ys y =>
    cases ys with
    | nil =>
      cases ht
      exact .inl ⟨rfl, rfl⟩
    | cons z ys =>
      cases ht
      exact .inr (.inr ⟨ys, .last ys y, rfl⟩)
  | item before after h =>
    cases before with
    | nil =>
      cases ht
      exact .inr (.inl ⟨_, h, rfl⟩)
    | cons z before =>
      cases ht
      exact .inr (.inr ⟨_, .item before after h, rfl⟩)
  | _ => cases ht

theorem Shrinks.exists_object {fs : Fields Tree} {t' : Tree} (h : Shrinks (object fs) t') :
    ∃ gs, t' = object gs := by
  cases h with
  | key before after f => exact ⟨_, rfl⟩
  | field before after k h => exact ⟨_, rfl⟩

theorem Shrinks.exists_array {xs : List Tree} {t' : Tree} (h : Shrinks (array xs) t') :
    ∃ ys, t' = array ys := by
  cases h with
  | last ys y => exact ⟨_, rfl⟩
  | item before after h => exact ⟨_, rfl⟩

theorem not_shrinks_array_nil (t : Tree) : ¬ Shrinks (array []) t := by
  intro h
  generalize he : array [] = s at h
  cases h <;> simp at he

theorem not_forall₂_same_of_shrinks {xs ys : List Tree}
    (hm : ∀ x ∈ xs, ∀ x', Shrinks x x' → ¬ x'.same x = true)
    (h : Shrinks (array xs) (array ys)) :
    ¬ List.Forall₂ (fun x y => x.same y = true) ys xs := by
  induction xs generalizing ys with
  | nil => exact absurd h (not_shrinks_array_nil _)
  | cons x xs ih =>
    rcases h.of_array_cons with ⟨rfl, he⟩ | ⟨x', hx, he⟩ | ⟨xs', hxs, he⟩
    · cases he
      simp
    · cases he
      rw [List.forall₂_cons]
      exact fun hs => hm x (by simp) x' hx hs.1
    · cases he
      rw [List.forall₂_cons]
      exact fun hs => ih (fun y hy => hm y (by simp [hy])) hxs hs.2

/-- **A shrunk tree never equals the tree it comes from.** -/
theorem Shrinks.not_same {t t' : Tree} (ht : t.WellFormed) (h : Shrinks t t') :
    ¬ t'.same t = true := by
  induction t generalizing t' with
  | object fs ih =>
    have hd := (wellFormed_object.1 ht).1
    have ht' := h.wellFormed ht
    obtain ⟨gs, rfl⟩ := h.exists_object
    obtain ⟨k, x, hx, hgs⟩ := h.of_object hd
    rw [same_object (wellFormed_object.1 ht').1 hd]
    intro ha
    have hk := ha k
    rw [hx] at hk
    cases hx' : Fields.get? k gs with
    | none => simp [hx'] at hk
    | some x' =>
      rw [hx', Option.rel_some_some] at hk
      exact ih k x (Fields.mem_of_get? hx) (ht.of_get? hx) (hgs x' hx') hk
  | array xs ih =>
    obtain ⟨ys, rfl⟩ := h.exists_array
    rw [wellFormed_array] at ht
    rw [same_array]
    exact not_forall₂_same_of_shrinks (fun x hx x' hxx => ih x hx (ht x hx) hxx) h
  | atom t ih =>
    cases h with
    | content h =>
      rw [same]
      exact ih (wellFormed_atom.1 ht) h
  | _ => cases h

theorem LooksInside.of_shrinks {s t t' : Tree} (h : Shrinks t t')
    (hl : LooksInside .never d s t') : LooksInside .never d s t := by
  cases hl with
  | object hd =>
    cases h with
    | key => exact .object hd rfl
    | field => exact .object hd rfl
  | array hd =>
    cases h with
    | last => exact .array hd rfl
    | item => exact .array hd rfl

/-! ## Shrunk diffs -/

/-- What is left of a copied target is what the merge gives, and it differs from the target. -/
theorem not_same_mergeAt_of_not_patches {s t o : Tree} (ht : t.Plain) (hn : ¬ Patches p d s t)
    (h : Shrinks (diffAt p d s t) o) : ¬ (mergeAt .never d s o).same t = true := by
  rcases diffAt_of_not_patches hn with he | ⟨he, hl⟩
  · rw [he, asAtom_of_isAtom (isAtom_of_atomFree ht.atomFree)] at h
    cases h with
    | @content _ t' h =>
      rw [mergeAt_of_isAtom rfl, unwrap, unwrap_of_atomFree (h.plain ht).atomFree]
      exact h.not_same ht.wellFormed
  · rw [he] at h
    rw [mergeAt_of_not_looksInside fun hi => hl _ (hi.of_shrinks h),
      unwrap_of_atomFree (h.plain ht).atomFree]
    exact h.not_same ht.wellFormed

/-- Patched objects differ from the target at the key of the deletion. -/
theorem not_agree_mergedFields {fs gs os : Fields Tree} (hf : fs.Distinct)
    (hg : (object gs).WellFormed)
    (hm : ∀ k x y o, (k, x) ∈ fs → Fields.get? k gs = some y → Shrinks (diffAt p d x y) o →
      ¬ (mergeAt .never d x o).same y = true)
    (h : Shrinks (object (overlayFields p d fs gs)) (object os)) :
    ¬ Fields.Agree (fun x y => x.same y = true) (mergedFields .never d fs os) gs := by
  obtain ⟨k, z, hz, hos⟩ := h.of_object (distinct_overlayFields hf (wellFormed_object.1 hg).1)
  intro ha
  have hk := ha k
  rw [get?_overlayFields hf] at hz
  obtain ⟨y, hy, hz⟩ := Option.bind_eq_some_iff.1 hz
  rw [get?_mergedFields, hy] at hk
  cases hx : Fields.get? k fs with
  | none =>
    -- The key is new, and its value was copied.
    rw [hx] at hz hk
    cases hz
    cases ho : Fields.get? k os with
    | none => simp [ho] at hk
    | some o =>
      simp only [ho, Option.map_none, Option.none_or, Option.rel_some_some] at hk
      exact (hos o ho).not_same (hg.of_get? hy) hk
  | some x =>
    -- The key is shared, and its value changes.
    simp only [hx, Option.elim_some, Option.ite_none_left_eq_some, Option.some.injEq] at hz
    obtain ⟨hxy, rfl⟩ := hz
    cases ho : Fields.get? k os with
    | none =>
      simp only [hx, ho, Option.map_some, Option.elim_none, Option.some_or,
        Option.rel_some_some] at hk
      exact hxy hk
    | some o =>
      simp only [hx, ho, Option.map_some, Option.elim_some, Option.some_or,
        Option.rel_some_some] at hk
      exact hm k x y o (Fields.mem_of_get? hx) hy (hos o ho) hk

theorem not_forall₂_mergeItems {xs ys os : List Tree} (hy : ∀ y ∈ ys, y.WellFormed)
    (hm : ∀ x ∈ xs, ∀ y ∈ ys, ∀ o, Shrinks (diffAt p d x y) o →
      ¬ (mergeAt .never d x o).same y = true)
    (h : Shrinks (array (diffItems p d xs ys)) (array os)) :
    ¬ List.Forall₂ (fun x y => x.same y = true) (mergeItems .never d xs os) ys := by
  induction xs generalizing ys os with
  | nil =>
    rw [diffItems] at h
    rw [mergeItems]
    exact not_forall₂_same_of_shrinks (fun y hym y' hyy => hyy.not_same (hy y hym)) h
  | cons x xs ih =>
    cases ys with
    | nil =>
      rw [diffItems] at h
      exact absurd h (not_shrinks_array_nil _)
    | cons y ys =>
      rw [diffItems] at h
      split_ifs at h with hs
      · exact absurd h (not_shrinks_array_nil _)
      rcases h.of_array_cons with ⟨-, he⟩ | ⟨o, ho, he⟩ | ⟨os', hos, he⟩
      · -- The diff had one item here because something changes from here on.
        cases he
        rw [mergeItems, ← sameItems_iff]
        exact hs
      -- The first item was shrunk, so it misses its target.
      · cases he
        rw [mergeItems, List.forall₂_cons]
        exact fun ha => hm x (by simp) y (by simp) o ho ha.1
      · cases he
        rw [mergeItems, List.forall₂_cons]
        intro ha
        refine ih (fun y' hy' => hy y' (by simp [hy'])) (fun x' hx' y' hy' => ?_) hos ha.2
        exact hm x' (by simp [hx']) y' (by simp [hy'])

/-- **A shrunk diff misses the target**, at every depth. -/
theorem not_same_mergeAt_of_shrinks {s t o : Tree} (hs : s.WellFormed) (ht : t.Plain) (d : Nat)
    (h : Shrinks (diffAt p d s t) o) : ¬ (mergeAt .never d s o).same t = true := by
  induction s generalizing t o d with
  | object fs ih =>
    by_cases hl : Patches p d (.object fs) t
    · cases hl with
      | @object _ gs hd hp hkeys ho =>
        have how := h.wellFormed (hs.diffAt ht.wellFormed d)
        rw [diffAt_object (.object hd hp hkeys ho)] at h
        obtain ⟨os, rfl⟩ := h.exists_object
        obtain ⟨hf, hfw⟩ := wellFormed_object.1 hs
        have hdm := distinct_mergedFields (p := .never) (d := d + 1) hf (wellFormed_object.1 how).1
        rw [mergeAt_object (.object hd rfl), same_object hdm (plain_object.1 ht).1]
        refine not_agree_mergedFields hf ht.wellFormed (fun k x y o hx hy ho => ?_) h
        exact ih k x hx (hfw _ hx) (hereditary_plain.of_get? ht hy) _ ho
    · exact not_same_mergeAt_of_not_patches ht hl h
  | array xs ih =>
    by_cases hl : Patches p d (.array xs) t
    · cases hl with
      | @array _ ys hd hp hlen ho =>
        rw [diffAt_array (.array hd hp hlen ho)] at h
        obtain ⟨os, rfl⟩ := h.exists_array
        rw [mergeAt_array (.array hd rfl), same_array]
        rw [wellFormed_array] at hs
        rw [plain_array] at ht
        refine not_forall₂_mergeItems (fun y hy => (ht y hy).wellFormed)
          (fun x hx y hy o ho => ?_) h
        exact ih x hx (hs x hx) (ht y hy) _ ho
    · exact not_same_mergeAt_of_not_patches ht hl h
  | _ => exact not_same_mergeAt_of_not_patches ht (by rintro ⟨⟩) h

/-- **Nothing in a diff can be left out.** Without one key of one object, or without the last item
of one array, at any place, an overlay that was built under any policy does not merge to the
target. -/
theorem not_same_merge_of_shrinks {source target overlay : Tree} (hs : source.Plain)
    (ht : target.Plain) (h : Shrinks (diffWith p source target) overlay) :
    (source.merge overlay).same target = false :=
  Bool.eq_false_iff.2 (not_same_mergeAt_of_shrinks hs.wellFormed ht 0 h)

/-- A key goes missing inside the atom of an object whose tag changed. -/
theorem not_same_merge_of_shrinks_atom :
    let source := object [("list", array [null]), ("server", object [("_type_", text "tcp")])]
    let target := object [("list", array [null, bool true]),
      ("server", object [("_type_", text "unix"), ("port", null)])]
    let overlay := object [("list", array [null, bool true]),
      ("server", atom (object [("_type_", text "unix")]))]
    source.Plain ∧ target.Plain ∧ Shrinks (diffWith .typeTagChanged source target) overlay ∧
      (source.merge overlay).same target = false := by
  intro source target overlay
  have hs : source.Plain := ⟨by simp [source, Fields.Distinct, Fields.keys], by decide⟩
  have ht : target.Plain := ⟨by simp [target, Fields.Distinct, Fields.keys], by decide⟩
  have hd : diffWith .typeTagChanged source target = object
      [("list", array [null, bool true]),
        ("server", atom (object [("_type_", text "unix"), ("port", null)]))] := by
    decide
  have hc : Shrinks (object [("_type_", text "unix"), ("port", null)])
      (object [("_type_", text "unix")]) := .key [("_type_", text "unix")] [] ("port", null)
  have h : Shrinks (diffWith .typeTagChanged source target) overlay := by
    rw [hd]
    exact .field [("list", array [null, bool true])] [] "server" (.content hc)
  exact ⟨hs, ht, h, not_same_merge_of_shrinks hs ht h⟩

end ConfigOverlay.Tree
