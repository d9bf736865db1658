import ConfigOverlay.Proofs.Merge
import ConfigOverlay.Proofs.Position

/-!
# Merging, position by position

What a merge holds at a position is known from what the two trees hold there
(`subtree?_merge`):

* where both hold something, the merge of the two;
* where only the overlay holds something, that, unchanged;
* where only the base holds something, that, unchanged, if base and overlay were still containers
  of one kind at the last place that the overlay has on the way, and nothing if they were not;
* where neither holds anything, nothing.

One step into a merge is known from one step into both trees (`part?_mergeAt`), and each of the
cases follows by induction on the position. A merge that has gone down some steps is as good as one
from the root, as long as one of its trees ends above the depth limit (`mergeAt_never_eq`).
-/

namespace ConfigOverlay.Tree

variable {p : Policy} {d d' : Nat} {e : Step} {q r : Position} {a b x y t u : Tree}

/-! ## Where merging looks inside -/

theorem IsContainer.depth_pos (h : IsContainer t) : 0 < t.depth := by
  cases h with
  | object fs =>
    rw [depth]
    exact Nat.succ_pos _
  | array xs =>
    rw [depth]
    exact Nat.succ_pos _

theorem LooksInside.sameContainer (h : LooksInside p d a b) : SameContainer a b := by
  cases h with
  | object hd hp => exact .object _ _
  | array hd hp => exact .array _ _

theorem LooksInside.lt_maxDepth (h : LooksInside p d a b) : d < maxDepth := by
  cases h with
  | object hd hp => exact hd
  | array hd hp => exact hd

theorem SameContainer.looksInside (h : SameContainer a b) (hd : d < maxDepth) :
    LooksInside .never d a b := by
  cases h with
  | object fs gs => exact .object hd rfl
  | array xs ys => exact .array hd rfl

theorem SameContainer.lt_maxDepth (h : SameContainer a b)
    (hd : d + min a.depth b.depth ≤ maxDepth) : d < maxDepth := by
  have ha := h.isContainer.depth_pos
  have hb := h.symm.isContainer.depth_pos
  omega

/-! ## One step into a merge -/

/-- **The merged items by index.** Items of both arrays merge, and any other item stays. -/
theorem getElem?_mergeItems (xs ys : List Tree) (i : Nat) :
    (mergeItems p d xs ys)[i]? =
      (xs[i]?.map fun x => ys[i]?.elim x (mergeAt p d x)).or ys[i]? := by
  induction xs generalizing ys i with
  | nil => simp [mergeItems]
  | cons x xs ih =>
    cases ys with
    | nil =>
      rw [mergeItems]
      cases h : (x :: xs)[i]? <;> simp
    | cons y ys =>
      rw [mergeItems]
      cases i with
      | zero => simp
      | succ i => simpa using ih ys i

/-- **One step into a merge** that looks inside: parts of both trees merge, and any other part
stays. -/
theorem part?_mergeAt (h : LooksInside p d a b) (e : Step) :
    (mergeAt p d a b).part? e =
      ((a.part? e).map fun x => (b.part? e).elim x (mergeAt p (d + 1) x)).or (b.part? e) := by
  cases h with
  | object hd hp =>
    rw [mergeAt_object (.object hd hp)]
    cases e with
    | key k => exact get?_mergedFields k _ _
    | item i => rfl
  | array hd hp =>
    rw [mergeAt_array (.array hd hp)]
    cases e with
    | key k => rfl
    | item i => exact getElem?_mergeItems _ _ i

/-! ## The depth at which a merge begins -/

theorem mergedFields_congr {fs gs : Fields Tree}
    (h : ∀ k x y, (k, x) ∈ fs → (k, y) ∈ gs → mergeAt p d x y = mergeAt p d' x y) :
    mergedFields p d fs gs = mergedFields p d' fs gs := by
  rw [mergedFields, mergedFields, mergeFields_eq_map, mergeFields_eq_map]
  congr 1
  refine List.map_congr_left fun f hf => ?_
  cases hy : Fields.get? f.1 gs with
  | none => rfl
  | some y => rw [Option.elim_some, Option.elim_some, h f.1 f.2 y hf (Fields.mem_of_get? hy)]

theorem mergeItems_congr {xs ys : List Tree}
    (h : ∀ x ∈ xs, ∀ y ∈ ys, mergeAt p d x y = mergeAt p d' x y) :
    mergeItems p d xs ys = mergeItems p d' xs ys := by
  induction xs generalizing ys with
  | nil => rw [mergeItems, mergeItems]
  | cons x xs ih =>
    cases ys with
    | nil => rw [mergeItems, mergeItems]
    | cons y ys =>
      rw [mergeItems, mergeItems, h x (by simp) y (by simp),
        ih fun x' hx' y' hy' => h x' (by simp [hx']) y' (by simp [hy'])]

/-- **The depth does not matter** as long as it leaves room for one of the trees. -/
theorem mergeAt_never_eq (h : d + min a.depth b.depth ≤ maxDepth)
    (h' : d' + min a.depth b.depth ≤ maxDepth) : mergeAt .never d a b = mergeAt .never d' a b := by
  induction a generalizing b d d' with
  | object fs ih =>
    by_cases hc : SameContainer (.object fs) b
    · cases hc with
      | object _ gs =>
        have hl := SameContainer.object fs gs
        rw [mergeAt_object (hl.looksInside (hl.lt_maxDepth h)),
          mergeAt_object (hl.looksInside (hl.lt_maxDepth h'))]
        refine congrArg _ (mergedFields_congr fun k x y hx hy => ?_)
        have hdx := depth_lt_of_mem_object hx
        have hdy := depth_lt_of_mem_object hy
        exact ih k x hx (by omega) (by omega)
    · rw [mergeAt_of_not_looksInside fun hl => hc hl.sameContainer,
        mergeAt_of_not_looksInside fun hl => hc hl.sameContainer]
  | array xs ih =>
    by_cases hc : SameContainer (.array xs) b
    · cases hc with
      | array _ ys =>
        have hl := SameContainer.array xs ys
        rw [mergeAt_array (hl.looksInside (hl.lt_maxDepth h)),
          mergeAt_array (hl.looksInside (hl.lt_maxDepth h'))]
        refine congrArg _ (mergeItems_congr fun x hx y hy => ?_)
        have hdx := depth_lt_of_mem_array hx
        have hdy := depth_lt_of_mem_array hy
        exact ih x hx (by omega) (by omega)
    · rw [mergeAt_of_not_looksInside fun hl => hc hl.sameContainer,
        mergeAt_of_not_looksInside fun hl => hc hl.sameContainer]
  | _ =>
    rw [mergeAt_of_not_looksInside (by rintro ⟨⟩), mergeAt_of_not_looksInside (by rintro ⟨⟩)]

/-! ## All the way into a merge -/

/-- **Where both trees hold something**, above the depth limit, the merge of the trees holds the
merge of the two. -/
theorem subtree?_mergeAt (hd : d + q.length ≤ maxDepth) (ha : a.subtree? q = some x)
    (hb : b.subtree? q = some y) :
    (mergeAt .never d a b).subtree? q = some (mergeAt .never (d + q.length) x y) := by
  induction q generalizing a b d with
  | nil =>
    cases ha
    cases hb
    rfl
  | cons e q ih =>
    rw [List.length_cons] at hd
    obtain ⟨u, hu, hx⟩ := Option.bind_eq_some_iff.1 ha
    obtain ⟨v, hv, hy⟩ := Option.bind_eq_some_iff.1 hb
    have hl : LooksInside .never d a b :=
      (sameContainer_of_part? hu hv).looksInside (by omega)
    rw [subtree?_cons, part?_mergeAt hl, hu, hv]
    show (mergeAt .never (d + 1) u v).subtree? q = _
    rw [ih (by omega) hx hy, List.length_cons, Nat.add_comm q.length, Nat.add_assoc]

/-- **Where the base holds nothing**, the merge holds what the overlay holds. -/
theorem subtree?_mergeAt_of_none (hb : b.atomFree = true) (ha : a.subtree? q = none) :
    (mergeAt p d a b).subtree? q = b.subtree? q := by
  induction q generalizing a b d with
  | nil => cases ha
  | cons e q ih =>
    by_cases hl : LooksInside p d a b
    · rw [subtree?_cons, subtree?_cons, part?_mergeAt hl]
      rw [subtree?_cons] at ha
      cases hu : a.part? e with
      | none => rfl
      | some u =>
        rw [hu] at ha
        cases hv : b.part? e with
        | none => exact ha
        | some v => exact ih (atomFree_part? hb hv) ha
    · rw [mergeAt_of_not_looksInside hl, unwrap_of_atomFree hb]

/-- The tree holds something at `r`, and nothing at longer beginnings of `q`. -/
def ReachesLast (t : Tree) (q r : Position) : Prop :=
  r <+: q ∧ (t.subtree? r).isSome ∧ ∀ r', r' <+: q → (t.subtree? r').isSome → r' <+: r

theorem reachesLast_nil (h : t.part? e = none) (q : Position) : ReachesLast t (e :: q) [] := by
  refine ⟨List.nil_prefix, rfl, fun r' hr' hsome => ?_⟩
  cases r' with
  | nil => exact List.nil_prefix
  | cons f r' =>
    obtain ⟨rfl, -⟩ := List.cons_prefix_cons.1 hr'
    simp [subtree?_cons, h] at hsome

theorem ReachesLast.cons (h : ReachesLast u q r) (hu : t.part? e = some u) :
    ReachesLast t (e :: q) (e :: r) := by
  obtain ⟨hr, hsome, hlast⟩ := h
  refine ⟨List.cons_prefix_cons.2 ⟨rfl, hr⟩, ?_, fun r' hr' hsome' => ?_⟩
  · rwa [subtree?_cons, hu]
  · cases r' with
    | nil => exact List.nil_prefix
    | cons f r' =>
      obtain ⟨rfl, hrq⟩ := List.cons_prefix_cons.1 hr'
      rw [subtree?_cons, hu] at hsome'
      exact List.cons_prefix_cons.2 ⟨rfl, hlast r' hrq hsome'⟩

theorem ReachesLast.eq (h : ReachesLast t q r) {s : Position} (h' : ReachesLast t q s) : r = s := by
  have hrs : r <+: s := h'.2.2 r h.1 h.2.1
  have hsr : s <+: r := h.2.2 s h'.1 h'.2.1
  exact hrs.eq_of_length_le hsr.length_le

/-- **Where only the base holds something**, all depends on the last place that the overlay has on
the way there: between containers of one kind the merge holds what the base holds, and otherwise
nothing. -/
theorem subtree?_mergeAt_of_left (hb : b.atomFree = true)
    (hd : d + min a.depth b.depth ≤ maxDepth) (ha : a.subtree? q = some x)
    (hq : b.subtree? q = none) :
    ∃ r u v, ReachesLast b q r ∧ a.subtree? r = some u ∧ b.subtree? r = some v ∧
      (SameContainer u v → (mergeAt .never d a b).subtree? q = some x) ∧
      (¬ SameContainer u v → (mergeAt .never d a b).subtree? q = none) := by
  induction q generalizing a b d with
  | nil => cases hq
  | cons e q ih =>
    obtain ⟨a', ha', hx⟩ := Option.bind_eq_some_iff.1 ha
    cases hb' : b.part? e with
    | none =>
      -- The overlay ends on the way, so its last place is here.
      refine ⟨[], a, b, reachesLast_nil hb' q, rfl, rfl, fun hc => ?_, fun hc => ?_⟩
      · have hl := hc.looksInside (hc.lt_maxDepth hd)
        rw [subtree?_cons, part?_mergeAt hl, ha', hb']
        exact hx
      · rw [mergeAt_of_not_looksInside fun hl => hc hl.sameContainer, unwrap_of_atomFree hb, hq]
    | some b' =>
      -- Both go on, so the pair is looked into and its last place is further down.
      have hc := sameContainer_of_part? ha' hb'
      have hl := hc.looksInside (hc.lt_maxDepth hd)
      have hda := depth_part?_lt ha'
      have hdb := depth_part?_lt hb'
      rw [subtree?_cons, hb'] at hq
      obtain ⟨r, u, v, hr, hu, hv, hsame, hother⟩ :=
        ih (d := d + 1) (atomFree_part? hb hb') (by omega) hx hq
      have hm : (mergeAt .never d a b).subtree? (e :: q) =
          (mergeAt .never (d + 1) a' b').subtree? q := by
        rw [subtree?_cons, part?_mergeAt hl, ha', hb']
        rfl
      refine ⟨e :: r, u, v, hr.cons hb', ?_, ?_, fun h => hm.trans (hsame h),
        fun h => hm.trans (hother h)⟩
      · rw [subtree?_cons, ha']
        exact hu
      · rw [subtree?_cons, hb']
        exact hv

/-- **Merging commutes with navigation.** Let the overlay be without atoms, and let base or overlay
end above the depth limit. At every position the merge holds

* the merge of what both hold there,
* what the overlay holds there, if the base holds nothing,
* what the base holds there, if the overlay holds nothing, provided that both are containers of one
  kind at the last place that the overlay has on the way; and nothing if they are not,
* nothing, if both hold nothing.

Where both hold objects, the keys of the base come first, then the new ones of the overlay. -/
theorem subtree?_merge (hb : b.atomFree = true) (hd : min a.depth b.depth ≤ maxDepth)
    (q : Position) :
    (∀ x y, a.subtree? q = some x → b.subtree? q = some y →
      (a.merge b).subtree? q = some (x.merge y)) ∧
    (∀ y, a.subtree? q = none → b.subtree? q = some y → (a.merge b).subtree? q = some y) ∧
    (∀ x, a.subtree? q = some x → b.subtree? q = none →
      ∃ r u v, ReachesLast b q r ∧ a.subtree? r = some u ∧ b.subtree? r = some v ∧
        (SameContainer u v → (a.merge b).subtree? q = some x) ∧
        (¬ SameContainer u v → (a.merge b).subtree? q = none)) ∧
    (a.subtree? q = none → b.subtree? q = none → (a.merge b).subtree? q = none) ∧
    ∀ fs gs, a.subtree? q = some (object fs) → b.subtree? q = some (object gs) →
      ∃ ms, (a.merge b).subtree? q = some (object ms) ∧
        Fields.keys ms = Fields.keys fs ++ (Fields.keys gs).filter (· ∉ Fields.keys fs) := by
  have hboth : ∀ x y, a.subtree? q = some x → b.subtree? q = some y →
      (a.merge b).subtree? q = some (x.merge y) := by
    intro x y hx hy
    have hla := length_add_depth_le hx
    have hlb := length_add_depth_le hy
    have hm : (a.merge b).subtree? q = some (mergeAt .never (0 + q.length) x y) :=
      subtree?_mergeAt (by omega) hx hy
    -- Both places are as far below the limit as their positions are long.
    have he : mergeAt .never (0 + q.length) x y = x.merge y :=
      mergeAt_never_eq (by omega) (by omega)
    rw [hm, he]
  refine ⟨hboth, ?_, ?_, ?_, ?_⟩
  · intro y ha hy
    exact (subtree?_mergeAt_of_none hb ha).trans hy
  · intro x hx hn
    exact subtree?_mergeAt_of_left hb (by omega) hx hn
  · intro ha hn
    exact (subtree?_mergeAt_of_none hb ha).trans hn
  · intro fs gs hfs hgs
    have hm := hboth _ _ hfs hgs
    rw [merge_object] at hm
    exact ⟨_, hm, keys_mergedFields fs gs⟩

/-- A server is merged, the next one stays behind the end of the overlay's list, and what was an
object becomes a list. -/
theorem subtree?_merge_servers :
    let first := object [("host", text "a"), ("port", null)]
    let patch := object [("tls", bool true), ("host", text "b")]
    let base := object [("servers", array [first, text "spare"]), ("log", object [("level", null)])]
    let overlay := object [("log", array []), ("servers", array [patch])]
    let level : Position := [.key "log", .key "level"]
    overlay.atomFree = true ∧ min base.depth overlay.depth ≤ maxDepth ∧
      (base.merge overlay).subtree? [.key "servers", .item 0] = some (first.merge patch) ∧
      (base.merge overlay).subtree? [.key "servers", .item 1] = some (text "spare") ∧
      (base.merge overlay).subtree? level = none := by
  intro first patch base overlay level
  have ho : overlay.atomFree = true := by decide
  have hd : min base.depth overlay.depth ≤ maxDepth := by decide
  have hservers : ReachesLast overlay [.key "servers", .item 1] [.key "servers"] :=
    (reachesLast_nil (t := array [patch]) rfl []).cons rfl
  have hlog : ReachesLast overlay level [.key "log"] :=
    (reachesLast_nil (t := array []) rfl []).cons rfl
  refine ⟨ho, hd, (subtree?_merge ho hd _).1 first patch rfl rfl, ?_, ?_⟩
  · obtain ⟨r, u, v, hr, hu, hv, hsame, -⟩ :=
      (subtree?_merge (a := base) ho hd [.key "servers", .item 1]).2.2.1 (text "spare") rfl rfl
    cases hr.eq hservers
    cases hu
    cases hv
    exact hsame (.array _ _)
  · obtain ⟨r, u, v, hr, hu, hv, -, hother⟩ :=
      (subtree?_merge (a := base) ho hd level).2.2.1 null rfl rfl
    cases hr.eq hlog
    cases hu
    cases hv
    exact hother (by rintro ⟨⟩)

end ConfigOverlay.Tree
