import ConfigOverlay.Proofs.Argument

/-!
# Written paths and lists of keys

A path is written with dots between its keys, and a text is read as the keys between its dots.

**Theorem (`KeyPath.parse_segments`).** Exactly the joins of one or more keys that can be written
are read, each as these keys, and exactly the paths of such keys are read back from their written
form. Any other text but the empty one is refused for the first of its segments, from the left,
that cannot be written.

The segments of a text are the only list of pieces without dots that joins to it
(`KeyPath.segments_iff`), so what is read and why reading fails are both said about that list
(`KeyPath.Segments.parse_eq`). A key with a dot is never a segment; what is written with it is read
as more keys.
-/

namespace ConfigOverlay.KeyPath

variable {text : String} {path keys : KeyPath} {key : String} {fault : Fault}

/-! ## Joining and splitting -/

theorem display_eq_intercalate (path : KeyPath) : path.display = ".".intercalate path := by
  rw [← String.toList_inj, toList_display, String.toList_intercalate]
  rfl

/-- The keys between the dots of a text. -/
structure Segments (text : String) (keys : KeyPath) : Prop where
  ne_nil : keys ≠ []
  undotted : ∀ k ∈ keys, '.' ∉ k.toList
  join : ".".intercalate keys = text

/-- **A text has one list of segments**, the pieces between its dots. -/
theorem segments_iff : Segments text keys ↔ text.toList.splitOn '.' = keys.map String.toList := by
  constructor
  · rintro ⟨hne, hdots, rfl⟩
    rw [← display_eq_intercalate, toList_display]
    exact List.splitOn_intercalate '.' (List.forall_mem_map.2 hdots) (by simpa using hne)
  · intro h
    refine ⟨fun hnil => ?_, fun k hk => ?_, ?_⟩
    · rw [hnil] at h
      exact List.splitOn_ne_nil _ _ h
    · exact not_mem_of_mem_splitOn (h ▸ List.mem_map_of_mem hk)
    · rw [← display_eq_intercalate, ← String.toList_inj, toList_display, ← h,
        List.intercalate_splitOn]

theorem exists_segments (text : String) : ∃ keys, Segments text keys :=
  ⟨(text.toList.splitOn '.').map String.ofList, segments_iff.2 (by simp [Function.comp_def])⟩

/-! ## Faults -/

/-- Why a segment cannot be written. -/
inductive Offends : String → Fault → Prop
  | empty : Offends "" .emptySegment
  | equals {key : String} (h : '=' ∈ key.toList) : Offends key .equalsSign

theorem segmentFault?_eq_some_iff :
    segmentFault? key.toList = some fault ↔ Offends key fault := by
  rw [segmentFault?]
  constructor
  · intro h
    split_ifs at h with hempty hequals
    · obtain rfl : key = "" := by simpa using hempty
      cases h
      exact .empty
    · cases h
      exact .equals (by simpa using hequals)
  · rintro (_ | hequals)
    · rfl
    · have hempty : key.toList ≠ [] := List.ne_nil_of_mem hequals
      simp [hempty, hequals]

/-- A segment holds no dot, so it can be written unless one of the faults is found in it. -/
theorem segmentFault?_eq_none_iff (h : '.' ∉ key.toList) :
    segmentFault? key.toList = none ↔ isAddressable key = true := by
  rw [isAddressable_iff, segmentFault?]
  split_ifs <;> simp_all

/-! ## Reading -/

/-- What is read, and why reading fails, from the segments alone. -/
theorem Segments.parse_eq (h : Segments text keys) (hne : text ≠ "") :
    parse text.toList = match keys.findSome? fun k => segmentFault? k.toList with
      | some fault => .error fault
      | none => .ok keys := by
  rw [parse, if_neg (by simpa using hne)]
  dsimp only
  rw [segments_iff.1 h, List.findSome?_map, List.map_map]
  cases hfault : keys.findSome? fun k => segmentFault? k.toList <;>
    simp [hfault, Function.comp_def]

/-- **Reading fails at the first segment that cannot be written.** -/
theorem parse_eq_error_iff :
    parse text.toList = .error fault ↔
      text = "" ∧ fault = .emptyKey ∨
      text ≠ "" ∧ ∃ before key after, Segments text (before ++ key :: after) ∧
        (∀ k ∈ before, isAddressable k = true) ∧ Offends key fault := by
  by_cases hne : text = ""
  · subst hne
    have hparse : parse "".toList = .error .emptyKey := rfl
    rw [hparse, Except.error.injEq]
    constructor
    · exact fun h => .inl ⟨rfl, h.symm⟩
    · rintro (⟨-, h⟩ | ⟨h, -⟩)
      · exact h.symm
      · exact absurd rfl h
  obtain ⟨keys, hkeys⟩ := exists_segments text
  have hfirst : parse text.toList = .error fault ↔
      keys.findSome? (fun k => segmentFault? k.toList) = some fault := by
    rw [hkeys.parse_eq hne]
    cases keys.findSome? fun k => segmentFault? k.toList <;> simp
  rw [hfirst, List.findSome?_eq_some_iff]
  constructor
  · rintro ⟨before, key, after, rfl, hfault, hbefore⟩
    refine .inr ⟨hne, before, key, after, hkeys, fun k hk => ?_, segmentFault?_eq_some_iff.1 hfault⟩
    have hdot := hkeys.undotted k (List.mem_append_left _ hk)
    exact (segmentFault?_eq_none_iff hdot).1 (hbefore k hk)
  · rintro (⟨rfl, -⟩ | ⟨-, before, key, after, hsegments, hbefore, hfault⟩)
    · exact absurd rfl hne
    · -- The segments of the text are the ones that were given.
      have heq : keys = before ++ key :: after := by
        have hmap := (segments_iff.1 hkeys).symm.trans (segments_iff.1 hsegments)
        exact List.map_injective_iff.2 (fun _ _ => String.toList_inj.1) hmap
      refine ⟨before, key, after, heq, segmentFault?_eq_some_iff.2 hfault, fun k hk => ?_⟩
      have hdot := hsegments.undotted k (List.mem_append_left _ hk)
      exact (segmentFault?_eq_none_iff hdot).2 (hbefore k hk)

/-- **Written paths and lists of keys that can be written correspond.** A text is read exactly when
it joins one or more keys that are not empty and hold neither a dot nor an equals sign, and it is
the written form of what is read. A path is read back exactly when it has a key and can be written.
A text that is not empty is refused for its first segment, from the left, that is empty or holds an
equals sign. -/
theorem parse_segments (text : String) (path : KeyPath) (fault : Fault) :
    path.display = ".".intercalate path ∧
    (parse text.toList = .ok path ↔
      path ≠ [] ∧ (∀ k ∈ path, k ≠ "" ∧ '.' ∉ k.toList ∧ '=' ∉ k.toList) ∧
        ".".intercalate path = text ∧ path.display = text) ∧
    (parse path.display.toList = .ok path ↔ path ≠ [] ∧ ∀ k ∈ path, isAddressable k = true) ∧
    (parse text.toList = .error fault ↔
      text = "" ∧ fault = .emptyKey ∨
      text ≠ "" ∧ ∃ before key after, Segments text (before ++ key :: after) ∧
        (∀ k ∈ before, isAddressable k = true) ∧ Offends key fault) := by
  have hdisplay := display_eq_intercalate path
  refine ⟨hdisplay, ?_, ?_, parse_eq_error_iff⟩
  · have hkeys : path.Addressable ↔
        ∀ k ∈ path, k ≠ "" ∧ '.' ∉ k.toList ∧ '=' ∉ k.toList := by
      simp [Addressable, isAddressable_iff]
    rw [parse_eq_ok_iff, hkeys, String.toList_inj, ← hdisplay, and_self]
  · rw [parse_eq_ok_iff]
    simp [Addressable]

/-- Of two faulty segments the first counts. -/
example : parse "a..b=c".toList = .error .emptySegment := by decide

end ConfigOverlay.KeyPath
