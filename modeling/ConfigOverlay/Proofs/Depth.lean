import ConfigOverlay.Proofs.Assign
import ConfigOverlay.Proofs.RoundTrip

/-!
# How deep trees get

**Theorem (`Tree.depth_bounds`).** A merge is no deeper than what it merges, a diff no deeper than
its target, and an assignment no deeper than the tree it changes or than its value below its path.
Nor is anything lost: a merge is as deep as its overlay, an assignment as its value below its path,
and what is deeper in a target than in its source the diff has to carry.

The upper bounds are inductions with one bound for everything, which goes down by one where the
trees do (`Tree.depth_mergeAt_le`, `Tree.depth_diffAt_le`, `Tree.depth_assign_le`). The lower bound
for diffs needs none: merging the diff gives a tree as deep as the target.
-/

namespace ConfigOverlay.Tree

variable {p : Policy} {n : Nat}

/-! ## Comparing depths -/

theorem depth_array_mono {xs ys : List Tree} (h : ∀ x ∈ xs, ∃ y ∈ ys, x.depth ≤ y.depth) :
    (array xs).depth ≤ (array ys).depth := by
  have hys : (array ys).depth = depthItems ys + 1 := by rw [depth]
  rw [hys, depth_array_le]
  intro x hx
  obtain ⟨y, hy, hxy⟩ := h x hx
  have hlt := depth_lt_of_mem_array hy
  omega

theorem depth_object_mono {fs gs : Fields Tree}
    (h : ∀ f ∈ fs, ∃ g ∈ gs, f.2.depth ≤ g.2.depth) : (object fs).depth ≤ (object gs).depth := by
  have hgs : (object gs).depth = depthFields gs + 1 := by rw [depth]
  rw [hgs, depth_object_le]
  intro f hf
  obtain ⟨g, hg, hfg⟩ := h f hf
  have hlt := depth_lt_of_mem_object hg
  omega

theorem depth_le_of_same {s t : Tree} (hs : s.WellFormed) (ht : t.WellFormed)
    (h : s.same t = true) : s.depth ≤ t.depth := by
  induction s generalizing t with
  | array xs ih =>
    cases t with
    | array ys =>
      rw [same_array] at h
      rw [wellFormed_array] at hs ht
      have hmem := forall₂_imp_mem (S := fun x _ => (∃ y ∈ ys, x.depth ≤ y.depth) ∧ True) h
        fun x hx y hy hxy => ⟨⟨y, hy, ih x hx (hs x hx) (ht y hy) hxy⟩, trivial⟩
      exact depth_array_mono ((List.forall₂_and_left xs ys).1 hmem).1
    | _ => simp [same] at h
  | object fs ih =>
    cases t with
    | object gs =>
      obtain ⟨hdf, -⟩ := wellFormed_object.1 hs
      obtain ⟨hdg, -⟩ := wellFormed_object.1 ht
      rw [same_object hdf hdg] at h
      apply depth_object_mono
      intro f hf
      have hx := hdf.get?_of_mem hf
      have hk := h f.1
      rw [hx] at hk
      cases hy : Fields.get? f.1 gs with
      | none => simp [hy] at hk
      | some y =>
        rw [hy, Option.rel_some_some] at hk
        exact ⟨_, Fields.mem_of_get? hy, ih f.1 f.2 hf (hs.of_get? hx) (ht.of_get? hy) hk⟩
    | _ => simp [same] at h
  | atom s ih =>
    cases t with
    | atom t =>
      rw [same] at h
      rw [depth_atom, depth_atom]
      exact ih (wellFormed_atom.1 hs) (wellFormed_atom.1 ht) h
    | _ => simp [same] at h
  | _ => exact Nat.zero_le _

/-! ## Merges -/

/-- **Merging makes nothing deeper.** -/
theorem depth_mergeAt_le {a b : Tree} (ha : a.depth ≤ n) (hb : b.depth ≤ n)
    (d : Nat) : (mergeAt p d a b).depth ≤ n := by
  induction a generalizing b n d with
  | object fs ih =>
    by_cases hl : LooksInside p d (.object fs) b
    · cases hl with
      | @object _ gs hd hp =>
        cases n with
        | zero => simp [depth] at ha
        | succ n =>
          rw [mergeAt_object (.object hd hp)]
          rw [depth_object_le] at ha hb ⊢
          have hmerge : ∀ k x y, (k, x) ∈ fs → (k, y) ∈ gs → (mergeAt p (d + 1) x y).depth ≤ n :=
            fun k x y hx hy => ih k x hx (ha _ hx) (hb _ hy) _
          exact forall_mem_mergedFields (P := fun t : Tree => t.depth ≤ n) hmerge ha hb
    · rwa [mergeAt_of_not_looksInside hl, depth_unwrap]
  | array xs ih =>
    by_cases hl : LooksInside p d (.array xs) b
    · cases hl with
      | @array _ ys hd hp =>
        cases n with
        | zero => simp [depth] at ha
        | succ n =>
          rw [mergeAt_array (.array hd hp)]
          rw [depth_array_le] at ha hb ⊢
          have hmerge : ∀ x ∈ xs, ∀ y ∈ ys, (mergeAt p (d + 1) x y).depth ≤ n :=
            fun x hx y hy => ih x hx (ha x hx) (hb y hy) _
          exact forall_mem_mergeItems hmerge ha hb
    · rwa [mergeAt_of_not_looksInside hl, depth_unwrap]
  | _ => rwa [mergeAt_of_not_looksInside (by rintro ⟨⟩), depth_unwrap]

theorem exists_mem_mergeItems {d : Nat} {xs ys : List Tree}
    (hm : ∀ x ∈ xs, ∀ y ∈ ys, y.depth ≤ (mergeAt p d x y).depth) :
    ∀ y ∈ ys, ∃ z ∈ mergeItems p d xs ys, y.depth ≤ z.depth := by
  induction xs generalizing ys with
  | nil => exact fun y hy => ⟨y, by rwa [mergeItems], Nat.le_refl _⟩
  | cons x xs ih =>
    cases ys with
    | nil => simp
    | cons y ys =>
      have hrest := ih fun x' hx' y' hy' =>
        hm x' (List.mem_cons_of_mem x hx') y' (List.mem_cons_of_mem y hy')
      rw [mergeItems]
      refine List.forall_mem_cons.2 ⟨⟨_, List.mem_cons_self, ?_⟩, fun y' hy' => ?_⟩
      · exact hm x List.mem_cons_self y List.mem_cons_self
      · obtain ⟨z, hz, hle⟩ := hrest y' hy'
        exact ⟨z, List.mem_cons_of_mem _ hz, hle⟩

/-- **A merge is as deep as its overlay**, of which it keeps everything. -/
theorem depth_le_depth_mergeAt {a b : Tree} (hb : b.WellFormed) (d : Nat) :
    b.depth ≤ (mergeAt p d a b).depth := by
  have hwhole : ∀ {a b : Tree} {d : Nat}, ¬ LooksInside p d a b →
      b.depth ≤ (mergeAt p d a b).depth := by
    intro a b d hn
    exact Nat.le_of_eq (by rw [mergeAt_of_not_looksInside hn, depth_unwrap])
  induction a generalizing b d with
  | object fs ih =>
    by_cases hl : LooksInside p d (.object fs) b
    · cases hl with
      | @object _ gs hd hp =>
        rw [mergeAt_object (.object hd hp)]
        apply depth_object_mono
        rintro ⟨k, y⟩ hy
        have hget := (wellFormed_object.1 hb).1.get?_of_mem hy
        have hk := get?_mergedFields (p := p) (d := d + 1) k fs gs
        rw [hget] at hk
        -- The field of the overlay is added, or merged into the one of the base.
        cases hx : Fields.get? k fs with
        | none =>
          rw [hx, Option.map_none, Option.none_or] at hk
          exact ⟨_, Fields.mem_of_get? hk, Nat.le_refl _⟩
        | some x =>
          rw [hx, Option.map_some, Option.elim_some, Option.some_or] at hk
          exact ⟨_, Fields.mem_of_get? hk,
            ih k x (Fields.mem_of_get? hx) (hb.of_get? hget) (d + 1)⟩
    · exact hwhole hl
  | array xs ih =>
    by_cases hl : LooksInside p d (.array xs) b
    · cases hl with
      | @array _ ys hd hp =>
        rw [mergeAt_array (.array hd hp)]
        rw [wellFormed_array] at hb
        apply depth_array_mono
        exact exists_mem_mergeItems fun x hx y hy => ih x hx (hb y hy) (d + 1)
    · exact hwhole hl
  | _ => exact hwhole (by rintro ⟨⟩)

/-! ## Diffs -/

theorem depth_asAtom (t : Tree) : t.asAtom.depth = t.depth := by
  cases t <;> simp [asAtom]

/-- **A diff is no deeper than its target.** -/
theorem depth_diffAt_le {s t : Tree} (ht : t.depth ≤ n) (d : Nat) :
    (diffAt p d s t).depth ≤ n := by
  -- Where the diff does not patch it is the target, perhaps as an atom.
  have hwhole : ∀ {s t : Tree} {d n : Nat}, t.depth ≤ n → ¬ Patches p d s t →
      (diffAt p d s t).depth ≤ n := by
    intro s t d n ht hn
    rcases diffAt_of_not_patches hn with h | ⟨h, -⟩
    · rwa [h, depth_asAtom]
    · rwa [h]
  induction s generalizing t n d with
  | object fs ih =>
    by_cases hl : Patches p d (.object fs) t
    · cases hl with
      | @object _ gs hd hp hkeys ho =>
        cases n with
        | zero => simp [depth] at ht
        | succ n =>
          rw [diffAt_object (.object hd hp hkeys ho)]
          rw [depth_object_le] at ht ⊢
          have hchanged : ∀ f ∈ diffFields p (d + 1) gs fs, f.2.depth ≤ n :=
            forall_mem_diffFields (P := fun t : Tree => t.depth ≤ n)
              fun k x y hx hy => ih k x hx (ht _ hy) _
          intro f hf
          rcases List.mem_append.1 hf with hnew | hf
          · exact ht f (List.mem_filter.1 hnew).1
          · exact hchanged f hf
    · exact hwhole ht hl
  | array xs ih =>
    by_cases hl : Patches p d (.array xs) t
    · cases hl with
      | @array _ ys hd hp hlen ho =>
        cases n with
        | zero => simp [depth] at ht
        | succ n =>
          rw [diffAt_array (.array hd hp hlen ho)]
          rw [depth_array_le] at ht ⊢
          exact forall_mem_diffItems (P := fun t : Tree => t.depth ≤ n)
            (fun x hx y hy => ih x hx (ht y hy) _) ht
    · exact hwhole ht hl
  | _ => exact hwhole ht (by rintro ⟨⟩)

/-- **What is deeper in the target than in the source, the diff carries.** -/
theorem depth_le_max_depth_diffWith {s t : Tree} (hs : s.WellFormed) (ht : t.WellFormed) :
    t.depth ≤ max s.depth (diffWith p s t).depth := by
  have hwf := hs.mergeAt (p := p) (hs.diffAt (p := p) ht 0) 0
  have hback := (reaches_mergeAt_diffAt (p := p) (fun _ _ _ _ h => h) hs ht 0).1
  calc t.depth = t.erase.depth := (depth_erase t).symm
    _ ≤ (mergeAt p 0 s (diffAt p 0 s t)).erase.depth :=
      depth_le_of_same ht.erase hwf.erase (same_symm hwf.erase ht.erase hback)
    _ = (mergeAt p 0 s (diffAt p 0 s t)).depth := depth_erase _
    _ ≤ max s.depth (diffAt p 0 s t).depth :=
      depth_mergeAt_le (Nat.le_max_left ..) (Nat.le_max_right ..) 0

/-! ## Assignments -/

theorem depth_fieldsOrEmpty_le {t : Tree} (h : t.depth ≤ n + 1) :
    ∀ f ∈ t.fieldsOrEmpty, f.2.depth ≤ n := by
  induction t with
  | object fs ih => exact depth_object_le.1 h
  | atom t ih =>
    rw [fieldsOrEmpty_atom]
    exact ih (by rwa [depth_atom] at h)
  | _ => exact fun f hf => nomatch hf

theorem depth_child_le {t : Tree} (h : t.depth ≤ n + 1) (k : String) : (child k t).depth ≤ n := by
  rw [child]
  cases hk : Fields.get? k t.fieldsOrEmpty with
  | none => exact Nat.zero_le n
  | some x => exact depth_fieldsOrEmpty_le h _ (Fields.mem_of_get? hk)

/-- **An assignment makes nothing deeper** than its base, or than its value below its path. -/
theorem depth_assign_le {path : KeyPath} {v base : Tree} (hb : base.depth ≤ n)
    (hv : path.length + v.depth ≤ n) : (assign path v base).depth ≤ n := by
  induction path generalizing base n with
  | nil => simpa using hv
  | cons k path ih =>
    rw [List.length_cons] at hv
    obtain ⟨n, rfl⟩ : ∃ m, n = m + 1 := ⟨n - 1, by omega⟩
    rw [assign_cons, depth_object_le]
    have hrest : (assign path v (child k base)).depth ≤ n := ih (depth_child_le hb k) (by omega)
    have hfields := depth_fieldsOrEmpty_le hb
    exact Fields.forall_mem_set (P := fun t : Tree => t.depth ≤ n) hfields k hrest

/-- The value of an assignment stands below its path. -/
theorem length_add_depth_le_assign (path : KeyPath) (v base : Tree) :
    path.length + v.depth ≤ (assign path v base).depth := by
  induction path generalizing base with
  | nil => simp
  | cons k path ih =>
    rw [assign_cons, List.length_cons]
    have hmem := Fields.mem_of_get?
      (Fields.get?_set_self k (assign path v (child k base)) base.fieldsOrEmpty)
    have hlt := depth_lt_of_mem_object hmem
    have hrest := ih (child k base)
    omega

/-! ## All bounds -/

/-- **Nothing gets deeper, and nothing is lost.** A merge is as deep as its overlay at least and as
the deeper of its two trees at most. A diff is no deeper than its target, and where it is less deep
the source was as deep as the target already. An assignment is as deep as its value below its path
at least, and at most as that or as the tree it changes. -/
theorem depth_bounds (p : Policy) (path : KeyPath) (a b : Tree) :
    (mergeWith p a b).depth ≤ max a.depth b.depth ∧ (diffWith p a b).depth ≤ b.depth ∧
    (assign path b a).depth ≤ max a.depth (path.length + b.depth) ∧
    path.length + b.depth ≤ (assign path b a).depth ∧
    (a.WellFormed → b.WellFormed →
      b.depth ≤ (mergeWith p a b).depth ∧ b.depth ≤ max a.depth (diffWith p a b).depth) := by
  refine ⟨?merge, ?diff, ?assign, length_add_depth_le_assign path b a, fun ha hb => ?lower⟩
  case merge => exact depth_mergeAt_le (Nat.le_max_left ..) (Nat.le_max_right ..) 0
  case diff => exact depth_diffAt_le (Nat.le_refl _) 0
  case assign => exact depth_assign_le (Nat.le_max_left ..) (Nat.le_max_right ..)
  case lower => exact ⟨depth_le_depth_mergeAt hb 0, depth_le_max_depth_diffWith ha hb⟩

/-- A wrapped array that is deeper than the one it replaces, and a new key. -/
theorem depth_bounds_wrapped :
    let a := object [("list", array [null])]
    let b := object [("new", empty), ("list", atom (array [array [atom (array [])]]))]
    a.WellFormed ∧ b.WellFormed ∧ a.depth = 2 ∧ b.depth = 4 ∧
      (mergeWith .arrayGrowth a b).depth = 4 ∧ (diffWith .arrayGrowth a b).depth = 4 ∧
      (assign ["list", "x"] b a).depth = 6 := by
  intro a b
  have ha : a.WellFormed := by simp [a, Fields.Distinct, Fields.keys]
  have hb : b.WellFormed := by simp [b, empty, Fields.Distinct, Fields.keys]
  have hda : a.depth = 2 := by decide
  have hdb : b.depth = 4 := by decide
  obtain ⟨hmerge, hdiff, hassign, hassign', hlower⟩ := depth_bounds .arrayGrowth ["list", "x"] a b
  obtain ⟨hmerge', hdiff'⟩ := hlower ha hb
  rw [hda, hdb] at hmerge hassign hdiff'
  rw [hdb] at hdiff hassign' hmerge'
  rw [List.length_cons, List.length_singleton] at hassign hassign'
  exact ⟨ha, hb, hda, hdb, by omega, by omega, by omega⟩

end ConfigOverlay.Tree
