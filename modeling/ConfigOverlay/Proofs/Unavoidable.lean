import ConfigOverlay.Proofs.RoundTrip

/-!
# Atoms only where merging cannot do without

**Theorem (`atomFree_diffWith_iff`).** Between trees without atoms, the source within the depth
limit, a diff that keeps no pair together holds an atom exactly when no overlay without atoms
merges into the source to the target.

One direction is the round trip: a diff without atoms is such an overlay. For the other, let any
overlay without atoms reach the target and follow the diff down. Two objects can only have been
merged key by key, so the target has all keys of the source, and two arrays item by item, so the
target is as long as the source at least: the diff patches (`atomFree_diffAt_object`,
`atomFree_diffItems`). Where a value changes the overlay must say so, and the part of it that
stands there reaches the target's value. Where the overlay ends, the source's own values stay, and
from there on the diff says nothing.
-/

namespace ConfigOverlay.Tree

variable {p : Policy} {d : Nat}

/-! ## What merging looks inside -/

/-- A source within the depth limit is either taken apart or of another kind than the target, and
then the diff is the target. -/
theorem diffAt_of_not_looksInside {s t : Tree} (hd : d + s.depth ≤ maxDepth)
    (h : ¬ LooksInside .never d s t) : diffAt .never d s t = t := by
  rw [diffAt.eq_def]
  split_ifs with ht
  · rfl
  cases s with
  | object fs =>
    rw [depth] at hd
    cases t with
    | object gs => exact absurd (.object (by omega) rfl) h
    | _ => simp [Policy.never, show ¬ maxDepth ≤ d by omega]
  | array xs =>
    rw [depth] at hd
    cases t with
    | array ys => exact absurd (.array (by omega) rfl) h
    | _ => simp [Policy.never, show ¬ maxDepth ≤ d by omega]
  | _ => rfl

/-- What merges to an object without removing anything was merged key by key. -/
theorem exists_object_of_mergeAt_same {fs gs : Fields Tree} {o : Tree} (ho : o.atomFree = true)
    (h : (mergeAt .never d (object fs) o).same (object gs) = true) : ∃ os, o = object os := by
  by_cases hl : LooksInside .never d (object fs) o
  · cases hl with
    | object => exact ⟨_, rfl⟩
  · rw [mergeAt_of_not_looksInside hl, unwrap_of_atomFree ho] at h
    exact exists_object_of_same h

theorem exists_array_of_mergeAt_same {xs ys : List Tree} {o : Tree} (ho : o.atomFree = true)
    (h : (mergeAt .never d (array xs) o).same (array ys) = true) : ∃ os, o = array os := by
  by_cases hl : LooksInside .never d (array xs) o
  · cases hl with
    | array => exact ⟨_, rfl⟩
  · rw [mergeAt_of_not_looksInside hl, unwrap_of_atomFree ho] at h
    exact exists_array_of_same h

/-! ## Diffs between trees that a merge connects -/

theorem atomFree_diffAt_object {fs gs os : Fields Tree} (hd : d < maxDepth)
    (hf : fs.Distinct) (hg : gs.Distinct) (hga : ∀ g ∈ gs, g.2.atomFree = true)
    (hm : ∀ k x o y, (k, x) ∈ fs → Fields.get? k os = some o → Fields.get? k gs = some y →
      (mergeAt .never (d + 1) x o).same y = true → (diffAt .never (d + 1) x y).atomFree = true)
    (h : Fields.Agree (fun x y => x.same y = true) (mergedFields .never (d + 1) fs os) gs) :
    (diffAt .never d (object fs) (object gs)).atomFree = true := by
  have hkeys : ∀ k ∈ fs.keys, k ∈ gs.keys := by
    intro k hk
    obtain ⟨f, hfm, rfl⟩ := List.mem_map.1 hk
    have hk := h f.1
    rw [get?_mergedFields, hf.get?_of_mem hfm] at hk
    by_contra hn
    rw [Fields.get?_eq_none.2 hn] at hk
    simp at hk
  rw [diffAt_object (.object hd rfl hkeys rfl), atomFree_object]
  refine forall_mem_overlayFields (P := fun z => z.atomFree = true) hf hg
    (fun k y _ hy => hga (k, y) (Fields.mem_of_get? hy)) ?_
  intro k x y hx hy hxy
  have hk := h k
  rw [get?_mergedFields, hx, hy, Option.map_some, Option.some_or, Option.rel_some_some] at hk
  cases ho : Fields.get? k os with
  | none =>
    -- The overlay says nothing of a value that changes.
    rw [ho, Option.elim_none, hxy] at hk
    cases hk
  | some o =>
    rw [ho, Option.elim_some] at hk
    exact hm k x o y (Fields.mem_of_get? hx) ho hy hk

theorem atomFree_diffItems {xs ys os : List Tree} (hya : ∀ y ∈ ys, y.atomFree = true)
    (hm : ∀ x ∈ xs, ∀ o ∈ os, ∀ y ∈ ys, (mergeAt .never d x o).same y = true →
      (diffAt .never d x y).atomFree = true)
    (h : List.Forall₂ (fun x y => x.same y = true) (mergeItems .never d xs os) ys) :
    xs.length ≤ ys.length ∧ ∀ z ∈ diffItems .never d xs ys, z.atomFree = true := by
  induction xs generalizing ys os with
  | nil => simpa [diffItems] using hya
  | cons x xs ih =>
    cases os with
    | nil =>
      -- The overlay ends, and nothing changes from here on.
      rw [mergeItems] at h
      refine ⟨Nat.le_of_eq h.length_eq, ?_⟩
      cases h with
      | cons hxy hs =>
        rw [diffItems, if_pos (sameItems_iff.2 (.cons hxy hs))]
        simp
    | cons o os =>
      rw [mergeItems] at h
      cases h with
      | @cons _ y _ ys hxy hs =>
        have hrest := ih (fun z hz => hya z (by simp [hz])) (fun x' hx' o' ho' y' hy' =>
          hm x' (by simp [hx']) o' (by simp [ho']) y' (by simp [hy'])) hs
        refine ⟨by simpa using hrest.1, ?_⟩
        rw [diffItems]
        split_ifs
        · simp
        · rw [List.forall_mem_cons]
          exact ⟨hm x (by simp) o (by simp) y (by simp) hxy, hrest.2⟩

/-- **What a merge without atoms reaches, a diff without atoms describes**, at every depth that
leaves room for the source. -/
theorem atomFree_diffAt {s t o : Tree} (hs : s.WellFormed) (ht : t.Plain) (ho : o.Plain)
    (hd : d + s.depth ≤ maxDepth) (h : (mergeAt .never d s o).same t = true) :
    (diffAt .never d s t).atomFree = true := by
  induction s generalizing t o d with
  | object fs ih =>
    by_cases hl : LooksInside .never d (.object fs) t
    · cases hl with
      | @object _ gs hdm =>
        -- The overlay is an object as well, and says of every shared key how to reach the target.
        obtain ⟨os, rfl⟩ := exists_object_of_mergeAt_same ho.atomFree h
        obtain ⟨hf, hfw⟩ := wellFormed_object.1 hs
        obtain ⟨hg, hgp⟩ := plain_object.1 ht
        obtain ⟨hod, hop⟩ := plain_object.1 ho
        rw [mergeAt_object (.object hdm rfl), same_object (distinct_mergedFields hf hod) hg] at h
        refine atomFree_diffAt_object hdm hf hg (fun g hgm => (hgp g hgm).atomFree) ?_ h
        intro k x o y hx hko hky hxy
        have hdx := depth_lt_of_mem_object hx
        exact ih k x hx (hfw _ hx) (hgp _ (Fields.mem_of_get? hky)) (hop _ (Fields.mem_of_get? hko))
          (by omega) hxy
    · rw [diffAt_of_not_looksInside hd hl]
      exact ht.atomFree
  | array xs ih =>
    by_cases hl : LooksInside .never d (.array xs) t
    · cases hl with
      | @array _ ys hdm =>
        obtain ⟨os, rfl⟩ := exists_array_of_mergeAt_same ho.atomFree h
        rw [mergeAt_array (.array hdm rfl), same_array] at h
        rw [wellFormed_array] at hs
        rw [plain_array] at ht ho
        have hm : ∀ x ∈ xs, ∀ o ∈ os, ∀ y ∈ ys, (mergeAt .never (d + 1) x o).same y = true →
            (diffAt .never (d + 1) x y).atomFree = true := by
          intro x hx o hom y hy hxy
          have hdx := depth_lt_of_mem_array hx
          exact ih x hx (hs x hx) (ht y hy) (ho o hom) (by omega) hxy
        obtain ⟨hlen, hz⟩ := atomFree_diffItems (fun y hy => (ht y hy).atomFree) hm h
        rw [diffAt_array (.array hdm rfl hlen rfl), atomFree_array]
        exact hz
    · rw [diffAt_of_not_looksInside hd hl]
      exact ht.atomFree
  | _ =>
    rw [diffAt_of_not_looksInside hd (by rintro ⟨⟩)]
    exact ht.atomFree

/-- **Atoms stand only where they must.** Between two trees without atoms, the source within the
depth limit, the diff that keeps no pair together holds an atom exactly when no overlay without
atoms merges into the source to the target. -/
theorem atomFree_diffWith_iff {source target : Tree} (hs : source.Plain) (ht : target.Plain)
    (hd : source.depth ≤ maxDepth) :
    (diffWith .never source target).atomFree = false ↔
      ¬ ∃ overlay : Tree, overlay.Plain ∧ (source.merge overlay).same target = true := by
  rw [← Bool.not_eq_true, not_iff_not]
  constructor
  · intro ha
    have hw : (diffWith .never source target).WellFormed := hs.wellFormed.diffAt ht.wellFormed 0
    have hr := reaches_mergeAt_diffAt (p := .never) (q := .never) (fun _ _ _ _ h => h)
      hs.wellFormed ht.wellFormed 0
    exact ⟨_, ⟨hw, ha⟩, hr.2 ht.atomFree⟩
  · rintro ⟨overlay, ho, h⟩
    exact atomFree_diffAt hs.wellFormed ht ho (by omega) h

/-- Below two shared containers a list gets shorter, and nothing but an atom makes it so. -/
theorem atomFree_diffWith_iff_shortened :
    let source := object [("log", object [("sinks", array [text "file", text "console"])])]
    let target := object [("log", object [("sinks", array [text "file"]), ("level", null)])]
    source.Plain ∧ target.Plain ∧ source.depth ≤ maxDepth ∧
      ¬ ∃ overlay : Tree, overlay.Plain ∧ (source.merge overlay).same target = true := by
  intro source target
  have hs : source.Plain := ⟨by simp [source, Fields.Distinct, Fields.keys], by decide⟩
  have ht : target.Plain := ⟨by simp [target, Fields.Distinct, Fields.keys], by decide⟩
  have hd : source.depth ≤ maxDepth := by decide
  have ha : (diffWith .never source target).atomFree = false := by decide
  exact ⟨hs, ht, hd, (atomFree_diffWith_iff hs ht hd).1 ha⟩

end ConfigOverlay.Tree
