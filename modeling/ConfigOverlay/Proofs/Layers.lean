import ConfigOverlay.Proofs.Navigation
import Mathlib.Data.Fintype.EquivFin

/-!
# Grouping layers

**Theorem (`merge_layers`).** Layers of configuration may be grouped: merging `b` and then `c` into
a base is merging into it what `b` and `c` merge to, with the same order of keys, as long as `b`
carries `c`. That is a condition on the two overlays only: wherever `c` holds a container and `b`
anything at all, they hold containers of one kind. Every tree carries itself, and merging a tree
into itself changes nothing, so merging an overlay a second time changes nothing either.

The proof is an induction on the base. Where merging looks inside the base and inside `b` the two
sides are compared key by key and item by item (`mergedFields_assoc`, `mergeItems_assoc`). Where it
looks inside only one of them, or below the depth limit, both sides take the same tree as a whole
(`mergeAt_assoc_of_not_looksInside`).

The condition cannot be weakened above the depth limit: if it fails at a position, a base that
holds a larger container there tells the two groupings apart (`carries_of_merge_assoc`).
-/

namespace ConfigOverlay.Tree

variable {p : Policy} {d : Nat} {e : Step} {q : Position} {a b c t x y z : Tree}

/-! ## Overlays that carry others -/

/-- Wherever the upper tree holds a container and the lower one anything, both hold containers of
one kind. -/
def Carries (lower upper : Tree) : Prop :=
  ∀ q y z, lower.subtree? q = some y → upper.subtree? q = some z → z.IsContainer →
    SameContainer y z

theorem Carries.root (h : Carries b c) (hc : c.IsContainer) : SameContainer b c :=
  h [] b c rfl rfl hc

theorem Carries.part (h : Carries b c) (hy : b.part? e = some y) (hz : c.part? e = some z) :
    Carries y z := by
  intro q y' z' hy' hz'
  refine h (e :: q) y' z' ?_ ?_
  · rw [subtree?_cons, hy]
    exact hy'
  · rw [subtree?_cons, hz]
    exact hz'

/-- What holds at the root and of all shared parts holds everywhere. -/
theorem Carries.of_parts (hroot : c.IsContainer → SameContainer b c)
    (hparts : ∀ e y z, b.part? e = some y → c.part? e = some z → Carries y z) :
    Carries b c := by
  intro q y z hy hz hc
  cases q with
  | nil =>
    cases hy
    cases hz
    exact hroot hc
  | cons e q =>
    obtain ⟨u, hu, hy⟩ := Option.bind_eq_some_iff.1 hy
    obtain ⟨v, hv, hz⟩ := Option.bind_eq_some_iff.1 hz
    exact hparts e u v hu hv q y z hy hz hc

theorem carries_self (t : Tree) : Carries t t := by
  intro q y z hy hz hc
  cases hy.symm.trans hz
  cases hc with
  | object fs => exact .object fs fs
  | array xs => exact .array xs xs

theorem IsContainer.unwrap_eq (h : IsContainer t) : t.unwrap = t := by
  cases h <;> rfl

theorem LooksInside.sameContainer_mergeAt (h : LooksInside p d a b) :
    SameContainer a (mergeAt p d a b) := by
  cases h with
  | object hd hp =>
    rw [mergeAt_object (.object hd hp)]
    exact .object _ _
  | array hd hp =>
    rw [mergeAt_array (.array hd hp)]
    exact .array _ _

/-! ## Three objects, three arrays -/

theorem has_mergedFields (k : String) (fs gs : Fields Tree) :
    Fields.has k (mergedFields p d fs gs) = (Fields.has k fs || Fields.has k gs) := by
  rw [Fields.has, get?_mergedFields, Option.isSome_or, Option.isSome_map]
  rfl

theorem mergeFields_append (hs fs gs : Fields Tree) :
    mergeFields p d hs (fs ++ gs) = mergeFields p d hs fs ++ mergeFields p d hs gs := by
  simp only [mergeFields_eq_map, List.map_append]

theorem mergeFields_filter (hs gs : Fields Tree) (test : String → Bool) :
    mergeFields p d hs (gs.filter fun g => test g.1) =
      (mergeFields p d hs gs).filter fun g => test g.1 := by
  simp only [mergeFields_eq_map, List.filter_map]
  rfl

/-- **Three objects, key by key.** A key of all three merges three values, and any other key at
most two. -/
theorem mergedFields_assoc {fs gs hs : Fields Tree}
    (h : ∀ k x y z, (k, x) ∈ fs → Fields.get? k gs = some y → Fields.get? k hs = some z →
      mergeAt p d (mergeAt p d x y) z = mergeAt p d x (mergeAt p d y z)) :
    mergedFields p d (mergedFields p d fs gs) hs =
      mergedFields p d fs (mergedFields p d gs hs) := by
  -- The keys of the base come first, with what both overlays hold for them.
  have hbase : mergeFields p d hs (mergeFields p d gs fs) =
      mergeFields p d (mergedFields p d gs hs) fs := by
    rw [mergeFields_eq_map, mergeFields_eq_map, mergeFields_eq_map, List.map_map]
    refine List.map_congr_left fun f hf => ?_
    simp only [Function.comp_apply, get?_mergedFields, Prod.mk.injEq, true_and]
    cases hy : Fields.get? f.1 gs with
    | none => cases Fields.get? f.1 hs <;> rfl
    | some y =>
      cases hz : Fields.get? f.1 hs with
      | none => rfl
      | some z => exact h f.1 f.2 y z hf hy hz
  -- The last keys are the ones that neither the base nor the lower overlay has.
  have hnew : (hs.filter fun g => !Fields.has g.1 (mergedFields p d fs gs)) =
      (hs.filter fun g => !Fields.has g.1 gs).filter fun g => !Fields.has g.1 fs := by
    rw [List.filter_filter]
    refine List.filter_congr fun g _ => ?_
    rw [has_mergedFields, Bool.not_or]
  calc mergedFields p d (mergedFields p d fs gs) hs
    _ = mergeFields p d hs (mergeFields p d gs fs ++ gs.filter fun g => !Fields.has g.1 fs) ++
          hs.filter fun g => !Fields.has g.1 (mergedFields p d fs gs) := rfl
    _ = mergeFields p d (mergedFields p d gs hs) fs ++
          ((mergeFields p d hs gs).filter (fun g => !Fields.has g.1 fs) ++
            (hs.filter fun g => !Fields.has g.1 gs).filter fun g => !Fields.has g.1 fs) := by
        rw [mergeFields_append, mergeFields_filter hs gs fun k => !Fields.has k fs, hbase, hnew,
          List.append_assoc]
    _ = mergedFields p d fs (mergedFields p d gs hs) := by
        rw [← List.filter_append]
        rfl

theorem mergeItems_nil_right (xs : List Tree) : mergeItems p d xs [] = xs := by
  cases xs <;> rw [mergeItems]

/-- **Three arrays, item by item.** -/
theorem mergeItems_assoc {xs ys zs : List Tree}
    (h : ∀ x ∈ xs, ∀ (i : Nat) y z, ys[i]? = some y → zs[i]? = some z →
      mergeAt p d (mergeAt p d x y) z = mergeAt p d x (mergeAt p d y z)) :
    mergeItems p d (mergeItems p d xs ys) zs = mergeItems p d xs (mergeItems p d ys zs) := by
  induction xs generalizing ys zs with
  | nil => rw [mergeItems, mergeItems]
  | cons x xs ih =>
    cases ys with
    | nil => rw [mergeItems_nil_right, mergeItems]
    | cons y ys =>
      cases zs with
      | nil => rw [mergeItems_nil_right, mergeItems_nil_right]
      | cons z zs =>
        have hhead := h x (by simp) 0 y z rfl rfl
        have htail := ih fun x' hx' i y' z' hy' hz' => h x' (by simp [hx']) (i + 1) y' z' hy' hz'
        rw [mergeItems, mergeItems, mergeItems, mergeItems, hhead, htail]

/-! ## Grouping -/

/-- Where merging does not look inside both pairs, both groupings take the same tree as a whole. -/
theorem mergeAt_assoc_of_not_looksInside (hb : b.atomFree = true) (hc : c.atomFree = true)
    (h : Carries b c) (hn : ¬ (LooksInside .never d a b ∧ LooksInside .never d b c)) :
    mergeAt .never d (mergeAt .never d a b) c = mergeAt .never d a (mergeAt .never d b c) := by
  by_cases hbc : LooksInside .never d b c
  · have hab : ¬ LooksInside .never d a b := fun hab => hn ⟨hab, hbc⟩
    have hm := hbc.sameContainer_mergeAt
    -- What `b` and `c` merge to is of the same kind as `b`, so it is taken as `b` is.
    have habc : ¬ LooksInside .never d a (mergeAt .never d b c) := fun hl =>
      hab ((hl.sameContainer.trans hm.symm).looksInside hl.lt_maxDepth)
    rw [mergeAt_of_not_looksInside hab, unwrap_of_atomFree hb, mergeAt_of_not_looksInside habc,
      hm.symm.isContainer.unwrap_eq]
  · have hany : ∀ t, ¬ LooksInside .never d t c := by
      intro t hl
      have hroot := h.root hl.sameContainer.symm.isContainer
      exact hbc (hroot.looksInside hl.lt_maxDepth)
    rw [mergeAt_of_not_looksInside (hany b), mergeAt_of_not_looksInside (hany _),
      unwrap_of_atomFree hc, mergeAt_of_not_looksInside (hany a), unwrap_of_atomFree hc]

/-- **Grouping layers**, at every depth. -/
theorem mergeAt_assoc (hb : b.atomFree = true) (hc : c.atomFree = true) (h : Carries b c)
    (d : Nat) :
    mergeAt .never d (mergeAt .never d a b) c = mergeAt .never d a (mergeAt .never d b c) := by
  induction a generalizing b c d with
  | object fs ih =>
    -- Only where merging looks into both pairs do the groupings differ in what they compute first.
    by_cases hl : LooksInside .never d (.object fs) b ∧ LooksInside .never d b c
    · obtain ⟨hab, hbc⟩ := hl
      cases hab with
      | @object _ gs hd hp =>
        cases hbc with
        | @object _ hs =>
          rw [mergeAt_object (.object hd rfl), mergeAt_object (.object hd rfl),
            mergeAt_object (.object hd rfl), mergeAt_object (.object hd rfl)]
          refine congrArg _ (mergedFields_assoc fun k x y z hx hy hz => ?_)
          have hyz : Carries y z := h.part (e := .key k) hy hz
          exact ih k x hx (atomFree_part? (e := .key k) hb hy) (atomFree_part? (e := .key k) hc hz)
            hyz (d + 1)
    · exact mergeAt_assoc_of_not_looksInside hb hc h hl
  | array xs ih =>
    by_cases hl : LooksInside .never d (.array xs) b ∧ LooksInside .never d b c
    · obtain ⟨hab, hbc⟩ := hl
      cases hab with
      | @array _ ys hd hp =>
        cases hbc with
        | @array _ zs =>
          rw [mergeAt_array (.array hd rfl), mergeAt_array (.array hd rfl),
            mergeAt_array (.array hd rfl), mergeAt_array (.array hd rfl)]
          refine congrArg _ (mergeItems_assoc fun x hx i y z hy hz => ?_)
          have hyz : Carries y z := h.part (e := .item i) hy hz
          exact ih x hx (atomFree_part? (e := .item i) hb hy)
            (atomFree_part? (e := .item i) hc hz) hyz (d + 1)
    · exact mergeAt_assoc_of_not_looksInside hb hc h hl
  | _ => exact mergeAt_assoc_of_not_looksInside hb hc h (by rintro ⟨⟨⟩, -⟩)

/-! ## Repeating -/

theorem mergedFields_self {fs : Fields Tree} (hd : fs.Distinct)
    (h : ∀ k x, (k, x) ∈ fs → mergeAt p d x x = x) : mergedFields p d fs fs = fs := by
  have hself : mergeFields p d fs fs = fs := by
    rw [mergeFields_eq_map]
    refine (List.map_congr_left fun f hf => ?_).trans (List.map_id fs)
    rw [hd.get?_of_mem hf, Option.elim_some, h f.1 f.2 hf, id]
  have hnone : (fs.filter fun g => !Fields.has g.1 fs) = [] := by
    refine List.filter_eq_nil_iff.2 fun g hg => ?_
    simp [Fields.has_iff_mem_keys.2 (Fields.mem_keys_of_mem hg)]
  rw [mergedFields, hself, hnone, List.append_nil]

theorem mergeItems_self {xs : List Tree} (h : ∀ x ∈ xs, mergeAt p d x x = x) :
    mergeItems p d xs xs = xs := by
  induction xs with
  | nil => rw [mergeItems]
  | cons x xs ih =>
    rw [List.forall_mem_cons] at h
    rw [mergeItems, h.1, ih h.2]

/-- **Merging a tree into itself changes nothing.** -/
theorem mergeAt_self (ht : t.Plain) (d : Nat) : mergeAt p d t t = t := by
  induction t generalizing d with
  | object fs ih =>
    by_cases hl : LooksInside p d (.object fs) (.object fs)
    · obtain ⟨hd, hf⟩ := plain_object.1 ht
      rw [mergeAt_object hl, mergedFields_self hd fun k x hx => ih k x hx (hf _ hx) (d + 1)]
    · rw [mergeAt_of_not_looksInside hl, unwrap_of_atomFree ht.atomFree]
  | array xs ih =>
    by_cases hl : LooksInside p d (.array xs) (.array xs)
    · rw [plain_array] at ht
      rw [mergeAt_array hl, mergeItems_self fun x hx => ih x hx (ht x hx) (d + 1)]
    · rw [mergeAt_of_not_looksInside hl, unwrap_of_atomFree ht.atomFree]
  | _ => rw [mergeAt_of_not_looksInside (by rintro ⟨⟩), unwrap_of_atomFree ht.atomFree]

/-- **Layers may be grouped, and repeated.** Two overlays without atoms, of which the lower carries
the upper, are merged into a base one after the other or first with each other, at every depth and
with the same order of keys. Merging an overlay a second time changes nothing. -/
theorem merge_layers (a : Tree) :
    (∀ b c : Tree, b.atomFree = true → c.atomFree = true → Carries b c →
      (a.merge b).merge c = a.merge (b.merge c)) ∧
    ∀ o : Tree, o.Plain → (a.merge o).merge o = a.merge o := by
  constructor
  · intro b c hb hc h
    exact mergeAt_assoc hb hc h 0
  · intro o ho
    have hself : o.merge o = o := mergeAt_self ho 0
    calc (a.merge o).merge o
      _ = a.merge (o.merge o) := mergeAt_assoc ho.atomFree ho.atomFree (carries_self o) 0
      _ = a.merge o := by rw [hself]

/-- The base wraps a section, and a list of it is longer than those of the overlays. -/
theorem merge_layers_ports :
    let base := object [("log", atom (object [("level", null)])), ("ports", array [null, null])]
    let lower := object [("ports", array [bool true]), ("name", text "a")]
    let upper := object [("log", object []), ("ports", array [text "b"])]
    (lower.atomFree = true ∧ upper.atomFree = true ∧ Carries lower upper ∧ upper.Plain) ∧
      (base.merge lower).merge upper = base.merge (lower.merge upper) ∧
      base.merge (lower.merge upper) = object [("log", object []),
        ("ports", array [text "b", null]), ("name", text "a")] ∧
      (base.merge upper).merge upper = base.merge upper := by
  intro base lower upper
  have hl : lower.atomFree = true := by decide
  have hu : upper.Plain := ⟨by simp [upper, Fields.Distinct, Fields.keys], by decide⟩
  have hc : Carries lower upper := by
    refine .of_parts (fun _ => .object _ _) fun e y z hy hz => ?_
    cases e with
    | item i => cases hy
    | key k =>
      -- The two overlays share the list of ports only.
      have hk : k = "ports" := by
        simp only [part?, lower, upper, Fields.get?_cons, Fields.get?_nil] at hy hz
        split_ifs at hy hz <;> simp_all
      subst hk
      cases hy
      cases hz
      refine .of_parts (fun _ => .array _ _) fun e y z _ hz => ?_
      cases e with
      | key k => cases hz
      | item i =>
        have hz : z ∈ [text "b"] := List.mem_of_getElem? hz
        rw [List.mem_singleton.1 hz]
        exact .of_parts (by rintro ⟨⟩) fun e _ _ _ h => by cases e <;> cases h
  refine ⟨⟨hl, hu.atomFree, hc, hu⟩, ?_, by decide, (merge_layers base).2 upper hu⟩
  exact (merge_layers base).1 lower upper hl hu.atomFree hc

/-! ## The condition is needed -/

/-- A tree whose only branch leads to a position; items before it are `null`. -/
def branch (content : Tree) : Position → Tree
  | [] => content
  | .key k :: q => object [(k, branch content q)]
  | .item i :: q => array (List.replicate i null ++ [branch content q])

theorem subtree?_branch (t : Tree) (q : Position) : (branch t q).subtree? q = some t := by
  induction q with
  | nil => rfl
  | cons e q ih =>
    cases e with
    | key k => simpa [branch, subtree?_cons, part?, Fields.get?_cons] using ih
    | item i => simpa [branch, subtree?_cons, part?] using ih

theorem plain_branch (ht : t.Plain) (q : Position) : (branch t q).Plain := by
  induction q with
  | nil => exact ht
  | cons e q ih =>
    cases e with
    | key k => exact plain_object.2 ⟨by simp [Fields.Distinct, Fields.keys], by simpa using ih⟩
    | item i =>
      refine plain_array.2 fun x hx => ?_
      rcases List.mem_append.1 hx with hx | hx
      · rw [List.eq_of_mem_replicate hx]
        exact plain_null
      · rwa [List.mem_singleton.1 hx]

/-- Some container of the same kind has a part where this one has none. -/
theorem IsContainer.exists_wider (h : IsContainer t) :
    ∃ w e, w.Plain ∧ SameContainer w t ∧ w.part? e = some null ∧ t.part? e = none := by
  cases h with
  | object fs =>
    obtain ⟨k, hk⟩ := Infinite.exists_notMem_finset (Fields.keys fs).toFinset
    rw [List.mem_toFinset] at hk
    refine ⟨.object [(k, null)], .key k, ?_, .object _ _, ?_, Fields.get?_eq_none.2 hk⟩
    · exact plain_object.2 ⟨by simp [Fields.Distinct, Fields.keys], by simpa using plain_null⟩
    · simp [part?, Fields.get?_cons]
  | array xs =>
    refine ⟨.array (.replicate (xs.length + 1) null), .item xs.length, ?_, .array _ _, ?_, ?_⟩
    · refine plain_array.2 fun x hx => ?_
      rw [List.eq_of_mem_replicate hx]
      exact plain_null
    · simp [part?]
    · simp [part?]

/-- **Above the depth limit the condition is needed.** If two overlays may be grouped over every
base, then wherever the upper holds a container and the lower anything, they hold containers of one
kind. -/
theorem carries_of_merge_assoc (hb : b.Plain) (hc : c.Plain)
    (h : ∀ a : Tree, a.Plain → (a.merge b).merge c = a.merge (b.merge c))
    (hq : q.length < maxDepth) (hy : b.subtree? q = some y) (hz : c.subtree? q = some z)
    (hcontainer : z.IsContainer) : SameContainer y z := by
  by_contra hn
  obtain ⟨w, e, hw, hwz, hpart, hnone⟩ := hcontainer.exists_wider
  have hyz : ¬ LooksInside .never q.length y z := fun hl => hn hl.sameContainer
  have hwy : ¬ LooksInside .never q.length w y :=
    fun hl => hn (hl.sameContainer.symm.trans hwz)
  have hya : y.atomFree = true := (hereditary_plain.subtree? hb hy).atomFree
  have hza : z.atomFree = true := (hereditary_plain.subtree? hc hz).atomFree
  have hover : ∀ {s t u v : Tree}, s.subtree? q = some u → t.subtree? q = some v →
      (s.merge t).subtree? q = some (mergeAt .never q.length u v) := by
    intro s t u v hu hv
    have hm := subtree?_mergeAt (d := 0) (by omega) hu hv
    rwa [Nat.zero_add] at hm
  have hbase := subtree?_branch w q
  -- One after the other, the overlays leave what the upper one holds.
  have hleft := hover (hover hbase hy) hz
  rw [mergeAt_of_not_looksInside hwy, unwrap_of_atomFree hya, mergeAt_of_not_looksInside hyz,
    unwrap_of_atomFree hza] at hleft
  -- Grouped, they are merged into the wider container of the base.
  have hright := hover hbase (hover hy hz)
  rw [mergeAt_of_not_looksInside hyz, unwrap_of_atomFree hza, ← h _ (plain_branch hw q), hleft,
    Option.some.injEq] at hright
  have hm := part?_mergeAt (hwz.looksInside hq) e
  rw [← hright, hpart, hnone] at hm
  cases hm

end ConfigOverlay.Tree
