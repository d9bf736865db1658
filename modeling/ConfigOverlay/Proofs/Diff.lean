import ConfigOverlay.Diff
import ConfigOverlay.Proofs.Merge

/-!
# Diffing, key by key

**What a diff can be.** Diffing patches two objects and two arrays that the policy does not keep
together, above the depth limit, when merging can reach the target without removing anything and
would look inside the patch (`Patches`). The patch mentions the keys that are new or changed
(`get?_overlayFields`), or the items up to the last change. Everywhere else the overlay is the
target, as an atom where merging would look inside it otherwise.
-/

namespace ConfigOverlay.Tree

variable {p : Policy} {d : Nat}

/-! ## Objects -/

/-- The fields of the patch between two objects: new keys, then changed keys. -/
def overlayFields (p : Policy) (d : Nat) (fs gs : Fields Tree) : Fields Tree :=
  (gs.filter fun g => !Fields.has g.1 fs) ++ diffFields p d gs fs

theorem keys_diffFields_sublist (fs gs : Fields Tree) :
    (Fields.keys (diffFields p d gs fs)).Sublist fs.keys := by
  induction fs with
  | nil => simp [diffFields]
  | cons f fs ih =>
    rw [diffFields]
    cases Fields.get? f.1 gs with
    | none => exact ih.cons _
    | some y =>
      dsimp only
      split_ifs
      · exact ih.cons _
      · exact ih.cons_cons _

theorem get?_diffFields {fs : Fields Tree} (hf : fs.Distinct) (gs : Fields Tree) (k : String) :
    Fields.get? k (diffFields p d gs fs) = (Fields.get? k fs).bind fun x =>
      (Fields.get? k gs).bind fun y => if x.same y then none else some (diffAt p d x y) := by
  induction fs with
  | nil => simp [diffFields]
  | cons f fs ih =>
    obtain ⟨l, x⟩ := f
    rw [Fields.distinct_cons] at hf
    have hrest : l ∉ Fields.keys (diffFields p d gs fs) :=
      fun hm => hf.1 ((keys_diffFields_sublist fs gs).subset hm)
    have hnone := Fields.get?_eq_none.2 hrest
    rw [diffFields, Fields.get?_cons]
    by_cases hk : k = l
    · subst hk
      cases hy : Fields.get? k gs with
      | none => simp [hnone]
      | some y =>
        by_cases hxy : x.same y <;> simp [hxy, hnone, Fields.get?_cons]
    · cases hy : Fields.get? l gs with
      | none => simp [hk, ih hf.2]
      | some y =>
        by_cases hxy : x.same y <;> simp [hxy, hk, ih hf.2, Fields.get?_cons]

/-- **The patch by key.** It holds the new value of a key that is new, and the overlay for a key
whose value changes. -/
theorem get?_overlayFields {fs : Fields Tree} (hf : fs.Distinct) (gs : Fields Tree) (k : String) :
    Fields.get? k (overlayFields p d fs gs) = (Fields.get? k gs).bind fun y =>
      (Fields.get? k fs).elim (some y) fun x =>
        if x.same y then none else some (diffAt p d x y) := by
  rw [overlayFields, Fields.get?_append, Fields.get?_filter fun k => !Fields.has k fs,
    get?_diffFields hf]
  cases hx : Fields.get? k fs <;> cases hy : Fields.get? k gs <;> simp [Fields.has, hx]

theorem distinct_overlayFields {fs gs : Fields Tree} (hf : fs.Distinct) (hg : gs.Distinct) :
    (overlayFields p d fs gs).Distinct := by
  have hd : Fields.Distinct (diffFields p d gs fs) := hf.sublist (keys_diffFields_sublist fs gs)
  refine (hg.filter _).append hd fun k hk hm => ?_
  obtain ⟨g, hgm, rfl⟩ := List.mem_map.1 hk
  have hkf := Fields.has_iff_mem_keys.2 ((keys_diffFields_sublist fs gs).subset hm)
  simpa [hkf] using (List.mem_filter.1 hgm).2

theorem exists_of_mem_overlayFields {fs gs : Fields Tree} (hf : fs.Distinct) (hg : gs.Distinct)
    {f : String × Tree} (h : f ∈ overlayFields p d fs gs) :
    ∃ y, Fields.get? f.1 gs = some y ∧ (Fields.get? f.1 fs = none ∧ f.2 = y ∨
      ∃ x, Fields.get? f.1 fs = some x ∧ x.same y = false ∧ f.2 = diffAt p d x y) := by
  have hget := (distinct_overlayFields hf hg).get?_of_mem h
  rw [get?_overlayFields hf] at hget
  obtain ⟨y, hy, hget⟩ := Option.bind_eq_some_iff.1 hget
  refine ⟨y, hy, ?_⟩
  cases hx : Fields.get? f.1 fs with
  | none =>
    rw [hx] at hget
    cases hget
    exact .inl ⟨rfl, rfl⟩
  | some x =>
    simp only [hx, Option.elim_some, Option.ite_none_left_eq_some, Option.some.injEq] at hget
    exact .inr ⟨x, rfl, by simpa using hget.1, hget.2.symm⟩

theorem forall_mem_diffFields {P : Tree → Prop} {fs gs : Fields Tree}
    (hm : ∀ k x y, (k, x) ∈ fs → (k, y) ∈ gs → P (diffAt p d x y)) :
    ∀ f ∈ diffFields p d gs fs, P f.2 := by
  induction fs with
  | nil => simp [diffFields]
  | cons f fs ih =>
    obtain ⟨k, x⟩ := f
    have hrest : ∀ f ∈ diffFields p d gs fs, P f.2 :=
      ih fun l x' y hx' hy => hm l x' y (List.mem_cons_of_mem _ hx') hy
    rw [diffFields]
    cases hy : Fields.get? k gs with
    | none => exact hrest
    | some y =>
      dsimp only
      split_ifs
      · exact hrest
      · exact List.forall_mem_cons.2
          ⟨hm k x y List.mem_cons_self (Fields.mem_of_get? hy), hrest⟩

theorem forall_mem_overlayFields {P : Tree → Prop} {fs gs : Fields Tree} (hf : fs.Distinct)
    (hg : gs.Distinct)
    (hadded : ∀ k y, Fields.get? k fs = none → Fields.get? k gs = some y → P y)
    (hchanged : ∀ k x y, Fields.get? k fs = some x → Fields.get? k gs = some y →
      x.same y = false → P (diffAt p d x y)) :
    ∀ f ∈ overlayFields p d fs gs, P f.2 := by
  intro f hfm
  obtain ⟨y, hy, ⟨hx, he⟩ | ⟨x, hx, hxy, he⟩⟩ := exists_of_mem_overlayFields hf hg hfm
  · rw [he]
    exact hadded f.1 y hx hy
  · rw [he]
    exact hchanged f.1 x y hx hy hxy

/-! ## Arrays -/

theorem forall_mem_diffItems {P : Tree → Prop} {xs ys : List Tree}
    (hm : ∀ x ∈ xs, ∀ y ∈ ys, P (diffAt p d x y)) (hy : ∀ y ∈ ys, P y) :
    ∀ z ∈ diffItems p d xs ys, P z := by
  induction xs generalizing ys with
  | nil => simpa [diffItems] using hy
  | cons x xs ih =>
    cases ys with
    | nil => simp [diffItems]
    | cons y ys =>
      rw [diffItems]
      split_ifs
      · simp
      · rw [List.forall_mem_cons]
        refine ⟨hm x (by simp) y (by simp), ih (fun x' hx' y' hy' => ?_) fun y' hy' => ?_⟩
        · exact hm x' (by simp [hx']) y' (by simp [hy'])
        · exact hy y' (by simp [hy'])

/-! ## The cases of a diff -/

/-- Diffing patches the source: merging can reach the target from it without removing anything,
and looks inside the pair and inside the patch. -/
inductive Patches (p : Policy) (d : Nat) : Tree → Tree → Prop
  | object {fs gs : Fields Tree} (hd : d < maxDepth) (hp : p (object fs) (object gs) = false)
    (hkeys : ∀ k ∈ fs.keys, k ∈ gs.keys)
    (ho : p (object fs) (object (overlayFields p (d + 1) fs gs)) = false) :
    Patches p d (object fs) (object gs)
  | array {xs ys : List Tree} (hd : d < maxDepth) (hp : p (array xs) (array ys) = false)
    (hlen : xs.length ≤ ys.length)
    (ho : p (array xs) (array (diffItems p (d + 1) xs ys)) = false) :
    Patches p d (array xs) (array ys)

theorem Patches.exists_object {fs : Fields Tree} {t : Tree} (h : Patches p d (.object fs) t) :
    ∃ gs, t = .object gs := by
  cases h with
  | object hd hp hkeys ho => exact ⟨_, rfl⟩

theorem Patches.mem_keys {fs gs : Fields Tree} (h : Patches p d (.object fs) (.object gs)) :
    ∀ k ∈ fs.keys, k ∈ gs.keys := by
  cases h with
  | object hd hp hkeys ho => exact hkeys

theorem all_keys_has_iff {fs gs : Fields Tree} :
    ((Fields.keys fs).all fun k => Fields.has k gs) = true ↔ ∀ k ∈ fs.keys, k ∈ gs.keys := by
  simp only [List.all_eq_true, Fields.has_iff_mem_keys]

theorem settle_of_not_isAtom {source target overlay : Tree} (h : overlay.isAtom = false) :
    settle p source target overlay =
      if p source overlay = true then target.asAtom else overlay := by
  simp [settle, h]

theorem diffAt_object {fs gs : Fields Tree} (h : Patches p d (object fs) (object gs)) :
    diffAt p d (object fs) (object gs) = object (overlayFields p (d + 1) fs gs) := by
  cases h with
  | object hd hp hkeys ho =>
    rw [diffAt.eq_def, if_neg (by simp [isAtom])]
    dsimp only
    rw [if_neg (by simp [hp, hd]), if_pos (all_keys_has_iff.2 hkeys), settle_of_not_isAtom rfl]
    exact if_neg (by simpa [overlayFields] using ho)

theorem diffAt_array {xs ys : List Tree} (h : Patches p d (array xs) (array ys)) :
    diffAt p d (array xs) (array ys) = array (diffItems p (d + 1) xs ys) := by
  cases h with
  | array hd hp hlen ho =>
    rw [diffAt.eq_def, if_neg (by simp [isAtom])]
    dsimp only
    rw [if_neg (by simp [hp, hd]), if_neg (by omega), settle_of_not_isAtom rfl]
    exact if_neg (by simpa using ho)

theorem diffAt_object_of_not_patches {fs gs : Fields Tree}
    (h : ¬ Patches p d (object fs) (object gs)) :
    diffAt p d (object fs) (object gs) = (object gs).asAtom := by
  rw [diffAt.eq_def, if_neg (by simp [isAtom])]
  dsimp only
  split_ifs with hl hkeys
  · rfl
  · rw [settle_of_not_isAtom rfl, ite_eq_left_iff]
    intro ho
    simp only [Bool.or_eq_true, decide_eq_true_eq, not_or, Nat.not_le, Bool.not_eq_true] at hl ho
    exact absurd (.object hl.1 hl.2 (all_keys_has_iff.1 hkeys) ho) h
  · rfl

theorem diffAt_array_of_not_patches {xs ys : List Tree}
    (h : ¬ Patches p d (array xs) (array ys)) :
    diffAt p d (array xs) (array ys) = (array ys).asAtom := by
  rw [diffAt.eq_def, if_neg (by simp [isAtom])]
  dsimp only
  split_ifs with hl hlen
  · rfl
  · rfl
  · rw [settle_of_not_isAtom rfl, ite_eq_left_iff]
    intro ho
    simp only [Bool.or_eq_true, decide_eq_true_eq, not_or, Nat.not_le, Bool.not_eq_true] at hl ho
    exact absurd (.array hl.1 hl.2 (by omega) ho) h

/-- **Where diffing does not patch, the overlay is the target**: as an atom, or as it is where no
merge looks inside. -/
theorem diffAt_of_not_patches {s t : Tree} (h : ¬ Patches p d s t) :
    diffAt p d s t = t.asAtom ∨ diffAt p d s t = t ∧ ∀ q, ¬ LooksInside q d s t := by
  by_cases ho : ∃ fs gs, s = object fs ∧ t = object gs
  · obtain ⟨fs, gs, rfl, rfl⟩ := ho
    exact .inl (diffAt_object_of_not_patches h)
  by_cases ha : ∃ xs ys, s = array xs ∧ t = array ys
  · obtain ⟨xs, ys, rfl, rfl⟩ := ha
    exact .inl (diffAt_array_of_not_patches h)
  have hne : ∀ q, ¬ LooksInside q d s t := by
    intro q hq
    cases hq with
    | object => exact ho ⟨_, _, rfl, rfl⟩
    | array => exact ha ⟨_, _, rfl, rfl⟩
  rw [diffAt.eq_def]
  split_ifs with ht
  · exact .inr ⟨rfl, hne⟩
  · split
    · split_ifs
      · exact .inl rfl
      · split
        · exact absurd ⟨_, _, rfl, rfl⟩ ho
        · exact .inr ⟨rfl, hne⟩
    · split_ifs
      · exact .inl rfl
      · split
        · exact absurd ⟨_, _, rfl, rfl⟩ ha
        · exact .inr ⟨rfl, hne⟩
    · exact .inr ⟨rfl, hne⟩

/-! ## Invariants -/

/-- **Diffing keeps hereditary properties** of the target that atoms do not break. -/
theorem Hereditary.diffAt {P : Tree → Prop} (hP : Hereditary P) (hatom : ∀ t, P t → P (atom t))
    {s t : Tree} (hs : s.WellFormed) (ht : P t) (d : Nat) : P (diffAt p d s t) := by
  have hwhole : ∀ {s t : Tree} {d : Nat}, P t → ¬ Patches p d s t → P (Tree.diffAt p d s t) := by
    intro s t d ht hn
    rcases diffAt_of_not_patches hn with h | ⟨h, -⟩
    · rw [h]
      cases t with
      | atom t => exact ht
      | _ => exact hatom _ ht
    · rwa [h]
  induction s generalizing t d with
  | object fs ih =>
    by_cases hl : Patches p d (.object fs) t
    · cases hl with
      | @object _ gs hd hp hkeys ho =>
        obtain ⟨hdf, hf⟩ := wellFormed_object.1 hs
        obtain ⟨hdg, hg⟩ := (hP.object gs).1 ht
        have hdo := distinct_overlayFields (p := p) (d := d + 1) hdf hdg
        rw [diffAt_object (.object hd hp hkeys ho), hP.object]
        refine ⟨hdo, forall_mem_overlayFields hdf hdg (fun k y _ hy => hP.of_get? ht hy) ?_⟩
        intro k x y hx hy _
        exact ih k x (Fields.mem_of_get? hx) (hs.of_get? hx) (hP.of_get? ht hy) _
    · exact hwhole ht hl
  | array xs ih =>
    by_cases hl : Patches p d (.array xs) t
    · cases hl with
      | @array _ ys hd hp hlen ho =>
        rw [diffAt_array (.array hd hp hlen ho), hP.array]
        rw [hP.array] at ht
        rw [wellFormed_array] at hs
        exact forall_mem_diffItems (fun x hx y hy => ih x hx (hs x hx) (ht y hy) _) ht
    · exact hwhole ht hl
  | _ => exact hwhole ht (by rintro ⟨⟩)

theorem WellFormed.diffAt {s t : Tree} (hs : s.WellFormed) (ht : t.WellFormed) (d : Nat) :
    (diffAt p d s t).WellFormed :=
  hereditary_wellFormed.diffAt (fun _ => wellFormed_atom.2) hs ht d

end ConfigOverlay.Tree
