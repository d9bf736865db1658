import ConfigOverlay.Proofs.Tree
import ConfigOverlay.Tree.Edit
import Mathlib.Data.List.Nodup

/-!
# Removing keys

The keys of a tree have paths, in the order of the tree (`Tree.keyPaths`). Removing a key removes
its path and those below it, and no other (`keyPaths_removeAt`); removing several keys, whatever
their order, removes what is at or below one of them (`keyPaths_foldl_removeAt`).

Only keys behind keys count: nothing inside an array or an atom has a path.
-/

namespace ConfigOverlay.Tree

/-! ## The paths of keys -/

mutual

/-- The paths of the keys of a tree, in its order, each before those below it. -/
def keyPaths : Tree → List KeyPath
  | .object fs => keyPathsFields fs
  | _ => []

def keyPathsFields : List (String × Tree) → List KeyPath
  | [] => []
  | (k, x) :: fs => [k] :: (x.keyPaths.map (k :: ·) ++ keyPathsFields fs)

end

/-- The path of a key and those below it. -/
def fieldKeyPaths (f : String × Tree) : List KeyPath := [f.1] :: f.2.keyPaths.map (f.1 :: ·)

theorem keyPaths_object (fs : Fields Tree) : (object fs).keyPaths = fs.flatMap fieldKeyPaths := by
  rw [keyPaths]
  induction fs with
  | nil => rfl
  | cons f fs ih =>
    rw [keyPathsFields, ih]
    rfl

theorem mem_fieldKeyPaths {f : String × Tree} {path : KeyPath} :
    path ∈ fieldKeyPaths f ↔ ∃ rest, path = f.1 :: rest ∧ (rest = [] ∨ rest ∈ f.2.keyPaths) := by
  simp only [fieldKeyPaths, List.mem_cons, List.mem_map]
  constructor
  · rintro (rfl | ⟨rest, hrest, rfl⟩)
    · exact ⟨[], rfl, .inl rfl⟩
    · exact ⟨rest, rfl, .inr hrest⟩
  · rintro ⟨rest, rfl, rfl | hrest⟩
    · exact .inl rfl
    · exact .inr ⟨rest, hrest, rfl⟩

theorem ne_nil_of_mem_keyPaths {t : Tree} {path : KeyPath} (h : path ∈ t.keyPaths) :
    path ≠ [] := by
  cases t with
  | object fs =>
    rw [keyPaths_object, List.mem_flatMap] at h
    obtain ⟨f, -, h⟩ := h
    obtain ⟨rest, rfl, -⟩ := mem_fieldKeyPaths.1 h
    exact List.cons_ne_nil _ _
  | _ => simp [keyPaths] at h

theorem cons_mem_keyPaths_object {fs : Fields Tree} {k : String} {path : KeyPath} :
    k :: path ∈ (object fs).keyPaths ↔ ∃ x, (k, x) ∈ fs ∧ (path = [] ∨ path ∈ x.keyPaths) := by
  rw [keyPaths_object, List.mem_flatMap]
  constructor
  · rintro ⟨⟨l, x⟩, hf, h⟩
    obtain ⟨rest, heq, hrest⟩ := mem_fieldKeyPaths.1 h
    cases heq
    exact ⟨x, hf, hrest⟩
  · rintro ⟨x, hf, h⟩
    exact ⟨(k, x), hf, mem_fieldKeyPaths.2 ⟨path, rfl, h⟩⟩

theorem singleton_mem_keyPaths_object {fs : Fields Tree} {k : String} :
    [k] ∈ (object fs).keyPaths ↔ k ∈ fs.keys := by
  simp [cons_mem_keyPaths_object, Fields.keys]

theorem exists_object_of_mem_keyPaths {t : Tree} {path : KeyPath} (h : path ∈ t.keyPaths) :
    ∃ fs, t = object fs := by
  cases t with
  | object fs => exact ⟨fs, rfl⟩
  | _ => simp [keyPaths] at h

theorem disjoint_fieldKeyPaths {f g : String × Tree} (h : f.1 ≠ g.1) :
    List.Disjoint (fieldKeyPaths f) (fieldKeyPaths g) := by
  intro path hf hg
  obtain ⟨rest, rfl, -⟩ := mem_fieldKeyPaths.1 hf
  obtain ⟨rest', heq, -⟩ := mem_fieldKeyPaths.1 hg
  exact h (List.cons.inj heq).1

/-- **No path comes twice.** -/
theorem nodup_keyPaths {t : Tree} (h : t.WellFormed) : t.keyPaths.Nodup := by
  induction t with
  | object fs ih =>
    obtain ⟨hd, hfs⟩ := wellFormed_object.1 h
    rw [keyPaths_object, List.nodup_flatMap]
    refine ⟨fun f hf => List.nodup_cons.2 ⟨?_, ?_⟩,
      (List.pairwise_map.1 hd).imp disjoint_fieldKeyPaths⟩
    · simpa using fun hnil => ne_nil_of_mem_keyPaths hnil rfl
    · exact (ih f.1 f.2 hf (hfs f hf)).map fun _ _ heq => (List.cons.inj heq).2
  | _ => simp [keyPaths]

/-! ## Removing a key -/

theorem removeAt_singleton (k : String) (fs : Fields Tree) :
    removeAt [k] (object fs) = object (Fields.erase k fs) := rfl

theorem removeAt_cons_cons (k l : String) (path : KeyPath) (fs : Fields Tree) :
    removeAt (k :: l :: path) (object fs) =
      match Fields.get? k fs with
      | some x => object (Fields.set k (removeAt (l :: path) x) fs)
      | none => object fs := by
  cases hlast : (l :: path).getLast? with
  | none => simp at hlast
  | some m =>
    cases hk : Fields.get? k fs <;>
      simp only [removeAt, List.getLast?_cons_cons, List.dropLast_cons_cons, hlast, modifyAt, hk]

theorem removeAt_of_fields?_eq_none {t : Tree} (h : t.fields? = none) (path : KeyPath) :
    removeAt path t = t := by
  match path with
  | [] => rfl
  | [k] => cases t <;> first | rfl | cases h
  | k :: l :: path =>
    cases hlast : (l :: path).getLast? with
    | none => simp at hlast
    | some m =>
      simp only [removeAt, List.getLast?_cons_cons, List.dropLast_cons_cons, hlast]
      cases t <;> first | rfl | cases h

theorem exists_removeAt_object (path : KeyPath) (fs : Fields Tree) :
    ∃ gs, removeAt path (object fs) = object gs := by
  match path with
  | [] => exact ⟨fs, rfl⟩
  | [k] => exact ⟨_, rfl⟩
  | k :: l :: path =>
    rw [removeAt_cons_cons]
    split
    · exact ⟨_, rfl⟩
    · exact ⟨_, rfl⟩

theorem Plain.removeAt {t : Tree} (h : t.Plain) (path : KeyPath) : (t.removeAt path).Plain := by
  induction path generalizing t with
  | nil => exact h
  | cons k path ih =>
    cases t with
    | object fs =>
      obtain ⟨hd, hfs⟩ := plain_object.1 h
      cases path with
      | nil =>
        rw [removeAt_singleton]
        exact plain_object.2 ⟨hd.filter _, fun f hf => hfs f (List.mem_of_mem_filter hf)⟩
      | cons l path =>
        rw [removeAt_cons_cons]
        split
        · rename_i x hx
          have hremoved := ih (hfs _ (Fields.mem_of_get? hx))
          exact plain_object.2 ⟨hd.set k _, Fields.forall_mem_set hfs k hremoved⟩
        · exact h
    | _ => rwa [removeAt_of_fields?_eq_none rfl]

theorem filter_flatMap_fieldKeyPaths {fs : Fields Tree} {k : String} (h : k ∉ fs.keys)
    (path : KeyPath) :
    (fs.flatMap fieldKeyPaths).filter (fun p => ¬ (k :: path) <+: p) =
      fs.flatMap fieldKeyPaths := by
  rw [List.filter_eq_self]
  intro p hp
  obtain ⟨f, hf, hp⟩ := List.mem_flatMap.1 hp
  obtain ⟨rest, rfl, -⟩ := mem_fieldKeyPaths.1 hp
  have hne : k ≠ f.1 := fun heq => h (heq ▸ Fields.mem_keys_of_mem hf)
  simp [List.cons_prefix_cons, hne]

theorem filter_fieldKeyPaths_singleton (k : String) (x : Tree) :
    (fieldKeyPaths (k, x)).filter (fun p => ¬ [k] <+: p) = [] := by
  rw [List.filter_eq_nil_iff]
  intro p hp
  obtain ⟨rest, rfl, -⟩ := mem_fieldKeyPaths.1 hp
  simp

theorem filter_fieldKeyPaths_cons (k l : String) (path : KeyPath) (x : Tree) :
    (fieldKeyPaths (k, x)).filter (fun p => ¬ (k :: l :: path) <+: p) =
      [k] :: (x.keyPaths.filter fun p => ¬ (l :: path) <+: p).map (k :: ·) := by
  rw [fieldKeyPaths, List.filter_cons_of_pos (by simp [List.cons_prefix_cons]), List.filter_map]
  congr 3
  funext p
  simp [List.cons_prefix_cons]

/-- **Removing a key removes its path and those below it.** -/
theorem keyPaths_removeAt {t : Tree} (h : t.WellFormed) {path : KeyPath} (hpath : path ≠ []) :
    (t.removeAt path).keyPaths = t.keyPaths.filter fun p => ¬ path <+: p := by
  induction path generalizing t with
  | nil => exact absurd rfl hpath
  | cons k path ih =>
    cases t with
    | object fs =>
      obtain ⟨hd, hfs⟩ := wellFormed_object.1 h
      cases hk : Fields.get? k fs with
      | none =>
        have hkeys := Fields.get?_eq_none.1 hk
        have hsame : removeAt (k :: path) (object fs) = object fs := by
          cases path with
          | nil => rw [removeAt_singleton, Fields.erase_of_not_mem hkeys]
          | cons l path => rw [removeAt_cons_cons, hk]
        rw [hsame, keyPaths_object, filter_flatMap_fieldKeyPaths hkeys]
      | some x =>
        have hx := hfs _ (Fields.mem_of_get? hk)
        obtain ⟨before, after, hfs, hbefore, hafter, hset, herase⟩ := hd.exists_append_of_get? hk
        -- Only the field of the key changes: it goes, or its value loses a key.
        have hsplit (fs' : Fields Tree) (hfs' : (fs'.flatMap fieldKeyPaths) =
            (fieldKeyPaths (k, x)).filter fun p => ¬ (k :: path) <+: p) :
            (object (before ++ (fs' ++ after))).keyPaths =
              (object fs).keyPaths.filter fun p => ¬ (k :: path) <+: p := by
          rw [keyPaths_object, keyPaths_object, hfs, List.flatMap_append, List.flatMap_append,
            List.flatMap_append, List.flatMap_cons, List.filter_append, List.filter_append, hfs',
            filter_flatMap_fieldKeyPaths hbefore, filter_flatMap_fieldKeyPaths hafter]
        cases path with
        | nil =>
          rw [removeAt_singleton, herase]
          exact hsplit [] (filter_fieldKeyPaths_singleton k x).symm
        | cons l path =>
          simp only [removeAt_cons_cons, hk, hset]
          refine hsplit [(k, removeAt (l :: path) x)] ?_
          rw [filter_fieldKeyPaths_cons, List.flatMap_singleton, fieldKeyPaths,
            ih hx (List.cons_ne_nil l path)]
    | _ =>
      rw [removeAt_of_fields?_eq_none rfl]
      rfl

/-- **Removing keys one after the other** removes what is at or below one of their paths. -/
theorem keyPaths_foldl_removeAt {t : Tree} (h : t.Plain) {paths : List KeyPath}
    (hpaths : ∀ path ∈ paths, path ≠ []) :
    (paths.foldl (fun t path => t.removeAt path) t).keyPaths =
      t.keyPaths.filter fun p => ∀ path ∈ paths, ¬ path <+: p := by
  induction paths generalizing t with
  | nil => simp
  | cons path paths ih =>
    rw [List.forall_mem_cons] at hpaths
    rw [List.foldl_cons, ih (h.removeAt path) hpaths.2, keyPaths_removeAt h.wellFormed hpaths.1,
      List.filter_filter]
    congr 1
    funext p
    simp [Bool.and_comm]

end ConfigOverlay.Tree
