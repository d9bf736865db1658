import ConfigOverlay.Proofs.Navigation

/-!
# Which atoms merging consumes

Merging strips the wrappers of an overlay that meets something in the base, stacked ones too. What
it does not look into it copies as it is (`Takes`): what wins against its counterpart, below the
wrappers at its root, and what has no counterpart in the base.

**Theorem (`mergeWith_takes`).** Every copied part is found in the result, unchanged. Into a base
without atoms, merging leaves no atom at any depth exactly when no copied part has one.

The proof takes one step into the merge at a time. A part of the merge is a part of the base, a
part of the overlay, or the merge of two parts (`part?_mergeAt`), and only the last of these leaves
something to show.
-/

namespace ConfigOverlay.Tree

variable {p : Policy} {d : Nat} {a b t : Tree} {q : Position}

/-- A part of the overlay that merging takes as it is, and its place in the result. -/
inductive Takes (p : Policy) : Nat → Tree → Tree → Position → Tree → Prop
  /-- What merging does not look into wins, without the wrappers at its root. -/
  | whole {d : Nat} {a b : Tree} (h : ¬ LooksInside p d a b) : Takes p d a b [] b.unwrap
  /-- What has no counterpart in the base is added. -/
  | added {d : Nat} {a b y : Tree} {e : Step} (hl : LooksInside p d a b)
    (ha : a.part? e = none) (hb : b.part? e = some y) : Takes p d a b [e] y
  /-- What has one is merged with it. -/
  | shared {d : Nat} {a b x y t : Tree} {e : Step} {q : Position} (hl : LooksInside p d a b)
    (ha : a.part? e = some x) (hb : b.part? e = some y) (h : Takes p (d + 1) x y q t) :
    Takes p d a b (e :: q) t

/-- The copied parts have no atoms. -/
def TakesAtomFree (p : Policy) (d : Nat) (a b : Tree) : Prop :=
  ∀ q t, Takes p d a b q t → t.atomFree = true

/-! ## One step into a merge -/

theorem LooksInside.isAtom_mergeAt (h : LooksInside p d a b) :
    (mergeAt p d a b).isAtom = false := by
  cases h with
  | object hd hp =>
    rw [mergeAt_object (.object hd hp)]
    rfl
  | array hd hp =>
    rw [mergeAt_array (.array hd hp)]
    rfl

theorem LooksInside.part?_mergeAt_of_none (h : LooksInside p d a b) {e : Step} {y : Tree}
    (ha : a.part? e = none) (hb : b.part? e = some y) : (mergeAt p d a b).part? e = some y := by
  rw [part?_mergeAt h, ha, hb]
  rfl

theorem LooksInside.part?_mergeAt_of_some (h : LooksInside p d a b) {e : Step} {x y : Tree}
    (ha : a.part? e = some x) (hb : b.part? e = some y) :
    (mergeAt p d a b).part? e = some (mergeAt p (d + 1) x y) := by
  rw [part?_mergeAt h, ha, hb]
  rfl

/-- **What is copied is found in the result**, unchanged. -/
theorem Takes.subtree?_mergeAt (h : Takes p d a b q t) : (mergeAt p d a b).subtree? q = some t := by
  induction h with
  | whole h => rw [mergeAt_of_not_looksInside h, subtree?]
  | added hl ha hb =>
    rw [subtree?_cons, hl.part?_mergeAt_of_none ha hb]
    rfl
  | shared hl ha hb h ih =>
    rw [subtree?_cons, hl.part?_mergeAt_of_some ha hb]
    exact ih

/-! ## The atoms that stay -/

theorem takesAtomFree_iff_of_not_looksInside (hl : ¬ LooksInside p d a b) :
    TakesAtomFree p d a b ↔ b.unwrap.atomFree = true := by
  constructor
  · exact fun h => h [] b.unwrap (.whole hl)
  · intro h q t ht
    cases ht with
    | whole => exact h
    | added hl' => exact absurd hl' hl
    | shared hl' => exact absurd hl' hl

theorem LooksInside.takesAtomFree_iff (hl : LooksInside p d a b) :
    TakesAtomFree p d a b ↔
      (∀ e y, a.part? e = none → b.part? e = some y → y.atomFree = true) ∧
      ∀ e x y, a.part? e = some x → b.part? e = some y → TakesAtomFree p (d + 1) x y := by
  constructor
  · intro h
    exact ⟨fun e y hx hy => h [e] y (.added hl hx hy),
      fun e x y hx hy q t ht => h (e :: q) t (.shared hl hx hy ht)⟩
  · rintro ⟨hadded, hshared⟩ q t ht
    cases ht with
    | whole hn => exact absurd hl hn
    | added _ hx hy => exact hadded _ _ hx hy
    | shared _ hx hy ht => exact hshared _ _ _ hx hy _ _ ht

/-- The atoms of the merge are those of what is added and of the merged parts. -/
theorem LooksInside.atomFree_mergeAt_iff (hl : LooksInside p d a b) (ha : a.Plain)
    (hb : b.WellFormed) :
    (mergeAt p d a b).atomFree = true ↔
      (∀ e y, a.part? e = none → b.part? e = some y → y.atomFree = true) ∧
      ∀ e x y, a.part? e = some x → b.part? e = some y →
        (mergeAt p (d + 1) x y).atomFree = true := by
  constructor
  · intro h
    exact ⟨fun e y hx hy => atomFree_part? h (hl.part?_mergeAt_of_none hx hy),
      fun e x y hx hy => atomFree_part? h (hl.part?_mergeAt_of_some hx hy)⟩
  · rintro ⟨hadded, hshared⟩
    refine atomFree_of_forall_part? (ha.wellFormed.mergeAt hb d) hl.isAtom_mergeAt ?_
    intro e z hz
    rw [part?_mergeAt hl] at hz
    cases hx : a.part? e with
    | none =>
      rw [hx] at hz
      exact hadded e z hx hz
    | some x =>
      rw [hx] at hz
      cases hy : b.part? e with
      | none =>
        -- Only the base has a part here, and the base has no atoms.
        rw [hy] at hz
        cases hz
        exact atomFree_part? ha.atomFree hx
      | some y =>
        rw [hy] at hz
        cases hz
        exact hshared e x y hx hy

theorem atomFree_mergeAt_iff (ha : a.Plain) (hb : b.WellFormed) :
    (mergeAt p d a b).atomFree = true ↔ TakesAtomFree p d a b := by
  induction hn : a.depth using Nat.strongRecOn generalizing a b d with
  | ind n ih =>
    by_cases hl : LooksInside p d a b
    · rw [hl.atomFree_mergeAt_iff ha hb, hl.takesAtomFree_iff]
      refine and_congr_right' (forall₃_congr fun e x y => forall₂_congr fun hx hy => ?_)
      have hlt : x.depth < n := hn ▸ depth_part?_lt hx
      exact ih x.depth hlt (hereditary_plain.part? ha hx) (hereditary_wellFormed.part? hb hy) rfl
    · rw [mergeAt_of_not_looksInside hl, takesAtomFree_iff_of_not_looksInside hl]

/-- **Atoms stay in what is copied, and nowhere else.** Every part of the overlay that merging takes
as it is stands in the result as it was: what wins against its counterpart, without the wrappers at
its root, and what has none, with its wrappers. Into a base without atoms, merging leaves no atom at
any depth exactly when these parts have none. -/
theorem mergeWith_takes (p : Policy) {base overlay : Tree} (hbase : base.Plain)
    (hoverlay : overlay.WellFormed) :
    (∀ q part, Takes p 0 base overlay q part →
      (mergeWith p base overlay).subtree? q = some part) ∧
    ((mergeWith p base overlay).atomFree = true ↔ TakesAtomFree p 0 base overlay) :=
  ⟨fun _ _ h => h.subtree?_mergeAt, atomFree_mergeAt_iff hbase hoverlay⟩

/-- Stacked wrappers around a list that replaces another one, and a new key beside it. -/
theorem mergeWith_takes_stacked :
    let base := object [("a", object [("b", array [null, null])])]
    let overlay := object [("a", object [("b", atom (atom (array [null]))), ("c", bool true)])]
    base.Plain ∧ overlay.WellFormed ∧ overlay.atomFree = false ∧
      (mergeWith .never base overlay).subtree? [.key "a", .key "b"] = some (array [null]) ∧
      (mergeWith .never base overlay).atomFree = true ∧ TakesAtomFree .never 0 base overlay := by
  intro base overlay
  have hbase : base.Plain :=
    Tree.WellFormed.plain_erase (t := base) (by simp [base, Fields.Distinct, Fields.keys])
  have hoverlay : overlay.WellFormed := by simp [overlay, Fields.Distinct, Fields.keys]
  have hfree : (mergeWith .never base overlay).atomFree = true := by decide
  have hroot : LooksInside .never 0 base overlay := .object (by decide) rfl
  have hinner : LooksInside .never 1 (object [("b", array [null, null])])
      (object [("b", atom (atom (array [null]))), ("c", bool true)]) := .object (by decide) rfl
  have hlist : Takes .never 0 base overlay [.key "a", .key "b"] (array [null]) :=
    .shared hroot rfl rfl (.shared hinner rfl rfl (.whole (by rintro ⟨⟩)))
  obtain ⟨hfound, hiff⟩ := mergeWith_takes .never hbase hoverlay
  exact ⟨hbase, hoverlay, rfl, hfound _ _ hlist, hfree, hiff.1 hfree⟩

/-- A new key keeps the wrapper of its value. -/
theorem mergeWith_added_atom :
    let overlay := object [("a", atom null)]
    empty.atomFree = true ∧ mergeWith .never empty overlay = overlay ∧
      (mergeWith .never empty overlay).atomFree = false := by
  decide

end ConfigOverlay.Tree
