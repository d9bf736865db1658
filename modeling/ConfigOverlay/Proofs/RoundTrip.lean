import ConfigOverlay.Proofs.Diff

/-!
# Merging a diff gives the target

**Theorem (`mergeWith_diffWith`).** An overlay built under a policy `p` and merged under a policy
`q` that takes apart whatever `p` takes apart leads from the source to the target. A target
without atoms is reached up to the order of keys. Any other target is reached up to the order of
keys and the places of its atoms, since merging consumes some of them.

The proof is an induction over the source, along which `Reaches m t` says that `m` is as good as
the target `t`. It needs four facts about `Reaches`: what the diff leaves out was equal already
(`reaches_of_same`), what is taken as a whole loses at most its wrappers (`reaches_unwrap`), and
objects and arrays reach their targets by parts (`reaches_object`, `reaches_array`).
-/

namespace ConfigOverlay.Tree

variable {p q : Policy} {d : Nat}

/-! ## Reaching a target -/

/-- Equal to the target up to atoms, and equal to it if it has none. -/
def Reaches (m t : Tree) : Prop :=
  m.erase.same t.erase = true ∧ (t.atomFree = true → m.same t = true)

/-! ### Equality up to atoms -/

theorem same_erase_object {fs gs : Fields Tree} (hf : fs.Distinct) (hg : gs.Distinct)
    (h : Fields.Agree (fun x y => x.erase.same y.erase = true) fs gs) :
    (object fs).erase.same (object gs).erase = true := by
  rw [erase_object, erase_object, same_object]
  · intro k
    rw [Fields.get?_map fun _ => Tree.erase, Fields.get?_map fun _ => Tree.erase]
    have hk := h k
    generalize Fields.get? k fs = x at hk ⊢
    generalize Fields.get? k gs = y at hk ⊢
    cases hk with
    | some hxy => exact .some hxy
    | none => exact .none
  · rwa [Fields.Distinct, Fields.keys_map fun _ => Tree.erase]
  · rwa [Fields.Distinct, Fields.keys_map fun _ => Tree.erase]

theorem same_erase_array {xs ys : List Tree}
    (h : List.Forall₂ (fun x y => x.erase.same y.erase = true) xs ys) :
    (array xs).erase.same (array ys).erase = true := by
  rw [erase_array, erase_array, same_array, List.forall₂_map_left_iff, List.forall₂_map_right_iff]
  exact h

theorem same_erase {s t : Tree} (hs : s.WellFormed) (ht : t.WellFormed) (h : s.same t = true) :
    s.erase.same t.erase = true := by
  induction s generalizing t with
  | array xs ih =>
    cases t with
    | array ys =>
      rw [same_array] at h
      rw [wellFormed_array] at hs ht
      exact same_erase_array
        (forall₂_imp_mem h fun x hx y hy hxy => ih x hx (hs x hx) (ht y hy) hxy)
    | _ => simp [same] at h
  | object fs ih =>
    cases t with
    | object gs =>
      obtain ⟨hf, -⟩ := wellFormed_object.1 hs
      obtain ⟨hg, -⟩ := wellFormed_object.1 ht
      rw [same_object hf hg] at h
      exact same_erase_object hf hg (h.mono fun k x y hx hy hxy =>
        ih k x (Fields.mem_of_get? hx) (hs.of_get? hx) (ht.of_get? hy) hxy)
    | _ => simp [same] at h
  | atom s ih =>
    cases t with
    | atom t =>
      rw [same] at h
      rw [erase_atom, erase_atom]
      exact ih (wellFormed_atom.1 hs) (wellFormed_atom.1 ht) h
    | _ => simp [same] at h
  | _ => cases t <;> first | exact h | simp [same] at h

/-! ### How targets are reached -/

theorem reaches_of_same {s t : Tree} (hs : s.WellFormed) (ht : t.WellFormed)
    (h : s.same t = true) : Reaches s t :=
  ⟨same_erase hs ht h, fun _ => h⟩

theorem reaches_self {t : Tree} (h : t.WellFormed) : Reaches t t :=
  reaches_of_same h h (same_refl h)

theorem reaches_unwrap {t : Tree} (h : t.WellFormed) : Reaches t.unwrap t := by
  constructor
  · rw [erase_unwrap]
    exact same_refl h.erase
  · intro ha
    rw [unwrap_of_atomFree ha]
    exact same_refl h

theorem reaches_object {ms gs : Fields Tree} (hm : ms.Distinct) (hg : gs.Distinct)
    (h : Fields.Agree Reaches ms gs) : Reaches (object ms) (object gs) := by
  constructor
  · exact same_erase_object hm hg (h.mono fun _ _ _ _ _ hxy => hxy.1)
  · intro ha
    rw [atomFree_object] at ha
    rw [same_object hm hg]
    exact h.mono fun k x y _ hy hxy => hxy.2 (ha _ (Fields.mem_of_get? hy))

theorem reaches_array {ms ys : List Tree} (h : List.Forall₂ Reaches ms ys) :
    Reaches (array ms) (array ys) := by
  constructor
  · exact same_erase_array (h.imp fun _ _ hxy => hxy.1)
  · intro ha
    rw [atomFree_array] at ha
    rw [same_array]
    exact forall₂_imp_mem h fun x _ y hy hxy => hxy.2 (ha y hy)

/-! ## The round trip -/

theorem agree_mergedFields_overlayFields {fs gs : Fields Tree} (hf : (object fs).WellFormed)
    (hg : (object gs).WellFormed) (hkeys : ∀ k ∈ fs.keys, k ∈ gs.keys)
    (hm : ∀ k x y, Fields.get? k fs = some x → Fields.get? k gs = some y →
      Reaches (mergeAt q d x (diffAt p d x y)) y) :
    Fields.Agree Reaches (mergedFields q d fs (overlayFields p d fs gs)) gs := by
  intro k
  rw [get?_mergedFields, get?_overlayFields (wellFormed_object.1 hf).1]
  cases hx : Fields.get? k fs with
  | none =>
    cases hy : Fields.get? k gs with
    | none => simp
    | some y => simpa using reaches_self (hg.of_get? hy)
  | some x =>
    cases hy : Fields.get? k gs with
    | none =>
      have hk : k ∈ fs.keys := Fields.mem_keys_of_get? hx
      exact absurd (hkeys k hk) (Fields.get?_eq_none.1 hy)
    | some y =>
      by_cases hxy : x.same y = true
      · simpa [hxy] using reaches_of_same (hf.of_get? hx) (hg.of_get? hy) hxy
      · simpa [hxy] using hm k x y hx hy

theorem forall₂_mergeItems_diffItems {xs ys : List Tree} (hx : ∀ x ∈ xs, x.WellFormed)
    (hy : ∀ y ∈ ys, y.WellFormed) (hlen : xs.length ≤ ys.length)
    (hm : ∀ x ∈ xs, ∀ y ∈ ys, Reaches (mergeAt q d x (diffAt p d x y)) y) :
    List.Forall₂ Reaches (mergeItems q d xs (diffItems p d xs ys)) ys := by
  induction xs generalizing ys with
  | nil =>
    rw [diffItems, mergeItems, List.forall₂_same]
    exact fun y hym => reaches_self (hy y hym)
  | cons x xs ih =>
    cases ys with
    | nil => simp at hlen
    | cons y ys =>
      rw [diffItems]
      split_ifs with hs
      -- From here on nothing changes, and the base's own items stay.
      · rw [mergeItems]
        rw [sameItems_iff] at hs
        exact forall₂_imp_mem hs fun a ha b hb hab => reaches_of_same (hx a ha) (hy b hb) hab
      · rw [mergeItems]
        refine .cons (hm x (by simp) y (by simp)) (ih ?_ ?_ (by simpa using hlen) ?_)
        · exact fun a ha => hx a (by simp [ha])
        · exact fun b hb => hy b (by simp [hb])
        · exact fun a ha b hb => hm a (by simp [ha]) b (by simp [hb])

/-- **The invariant of the round trip**, at every depth. -/
theorem reaches_mergeAt_diffAt
    (hqp : ∀ x y, x.WellFormed → y.WellFormed → q x y = true → p x y = true) {s t : Tree}
    (hs : s.WellFormed) (ht : t.WellFormed) (d : Nat) :
    Reaches (mergeAt q d s (diffAt p d s t)) t := by
  -- Where the diff does not patch, the merge takes the target as a whole.
  have hwhole : ∀ {s t : Tree} {d : Nat}, t.WellFormed → ¬ Patches p d s t →
      Reaches (mergeAt q d s (diffAt p d s t)) t := by
    intro s t d ht hn
    rcases diffAt_of_not_patches hn with h | ⟨h, hl⟩
    · rw [h, mergeAt_of_isAtom (isAtom_asAtom t), unwrap_asAtom]
      exact reaches_unwrap ht
    · rw [h, mergeAt_of_not_looksInside (hl q)]
      exact reaches_unwrap ht
  -- Where it patches, the merge looks inside the patch.
  have hfalse : ∀ {x y : Tree}, x.WellFormed → y.WellFormed → p x y = false → q x y = false := by
    intro x y hx hy hpf
    by_contra hq
    rw [hqp x y hx hy (by simpa using hq)] at hpf
    cases hpf
  have hwf := hs.diffAt (p := p) ht d
  induction s generalizing t d with
  | object fs ih =>
    by_cases hpat : Patches p d (.object fs) t
    · cases hpat with
      | @object _ gs hd hp hkeys ho =>
        rw [diffAt_object (.object hd hp hkeys ho)] at hwf ⊢
        rw [mergeAt_object (.object hd (hfalse hs hwf ho))]
        have hf := wellFormed_object.1 hs
        have hg := wellFormed_object.1 ht
        refine reaches_object (distinct_mergedFields hf.1 (wellFormed_object.1 hwf).1) hg.1
          (agree_mergedFields_overlayFields hs ht hkeys fun k x y hx hy => ?_)
        have hxw := hs.of_get? hx
        have hyw := ht.of_get? hy
        exact ih k x (Fields.mem_of_get? hx) hxw hyw _ (hxw.diffAt hyw _)
    · exact hwhole ht hpat
  | array xs ih =>
    by_cases hpat : Patches p d (.array xs) t
    · cases hpat with
      | @array _ ys hd hp hlen ho =>
        rw [diffAt_array (.array hd hp hlen ho)] at hwf ⊢
        rw [mergeAt_array (.array hd (hfalse hs hwf ho))]
        rw [wellFormed_array] at hs ht
        refine reaches_array (forall₂_mergeItems_diffItems hs ht hlen fun x hx y hy => ?_)
        exact ih x hx (hs x hx) (ht y hy) _ ((hs x hx).diffAt (ht y hy) _)
    · exact hwhole ht hpat
  | _ => exact hwhole ht (by rintro ⟨⟩)

/-- **Merging a diff gives the target**, also under a policy that takes more pairs apart than the
one the diff was made with. A target without atoms is reached up to the order of keys, any target
up to that and up to atoms. -/
theorem mergeWith_diffWith
    (hqp : ∀ x y, x.WellFormed → y.WellFormed → q x y = true → p x y = true) {source target : Tree}
    (hs : source.WellFormed) (ht : target.WellFormed) :
    (target.atomFree = true → (mergeWith q source (diffWith p source target)).same target = true) ∧
      (mergeWith q source (diffWith p source target)).erase.same target.erase = true :=
  (reaches_mergeAt_diffAt hqp hs ht 0).symm

/-- A tag changes, a key goes, an array gets shorter and the keys stand in another order. -/
theorem mergeWith_diffWith_retagged :
    let source := object [("list", array [null, bool true]),
      ("server", object [("_type_", text "tcp"), ("port", null)])]
    let target := object [("server", object [("_type_", text "unix")]), ("list", array [null])]
    (∀ x y, x.WellFormed → y.WellFormed → Policy.never x y = true →
        Policy.typeTagChanged x y = true) ∧
      source.WellFormed ∧ target.WellFormed ∧ target.atomFree = true ∧
      (mergeWith .never source (diffWith .typeTagChanged source target)).same target = true := by
  intro source target
  have hs : source.WellFormed := by simp [source, Fields.Distinct, Fields.keys]
  have ht : target.WellFormed := by simp [target, Fields.Distinct, Fields.keys]
  have ha : target.atomFree = true := by decide
  have hqp : ∀ x y, x.WellFormed → y.WellFormed → Policy.never x y = true →
      Policy.typeTagChanged x y = true := fun _ _ _ _ h => by cases h
  exact ⟨hqp, hs, ht, ha, (mergeWith_diffWith hqp hs ht).1 ha⟩

end ConfigOverlay.Tree
