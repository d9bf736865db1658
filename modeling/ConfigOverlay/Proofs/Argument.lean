import ConfigOverlay.Argument.Render
import ConfigOverlay.Proofs.Json.Plain
import ConfigOverlay.Proofs.Json.RoundTrip

/-!
# Written assignments are read back

A path of addressable keys is read back from its written form, since no key of it holds a dot, and
whatever is read as a path is the written form of that path (`KeyPath.parse_eq_ok_iff`). The equals
sign that ends it is the first of the argument, since no key holds one, and a path that starts with
a dash stands behind a flag. So every argument is read back from its canonical text
(`Argument.parse_display`), which is also what an overlay is rendered to
(`KeyPath.assignArgument_eq_ok_iff`), and the assigned value is read back from its text as far as a
text may nest (`Literal.parseScalar_toJson`).
-/

namespace ConfigOverlay

/-! ## Keys -/

theorem isAddressable_iff {k : String} :
    isAddressable k = true ↔ k.toList ≠ [] ∧ '.' ∉ k.toList ∧ '=' ∉ k.toList := by
  simp [isAddressable, and_assoc]

namespace KeyPath

/-! ## Paths -/

theorem not_mem_intercalate {c : Char} (hc : c ≠ '.') {pieces : List (List Char)}
    (h : ∀ piece ∈ pieces, c ∉ piece) : c ∉ List.intercalate ['.'] pieces := by
  induction pieces with
  | nil => simp
  | cons piece pieces ih =>
    rw [List.forall_mem_cons] at h
    cases pieces with
    | nil => simpa using h.1
    | cons piece' pieces =>
      have hrest := ih h.2
      simp [List.intercalate_cons_cons, h.1, hc, hrest]

theorem not_mem_of_mem_splitOn {c : Char} {cs piece : List Char} (h : piece ∈ cs.splitOn c) :
    c ∉ piece := by
  induction cs generalizing piece with
  | nil => simp_all
  | cons d cs ih =>
    obtain ⟨first, pieces, hsplit⟩ := List.exists_cons_of_ne_nil (List.splitOn_ne_nil c cs)
    rw [hsplit] at ih
    rw [List.splitOn_cons_eq_if_modifyHead, hsplit, List.modifyHead_cons] at h
    split_ifs at h with hd
    · rcases List.mem_cons.1 h with rfl | h
      · simp
      · exact ih h
    · rcases List.mem_cons.1 h with rfl | h
      · have hne : c ≠ d := fun he => hd (by simp [he])
        simp [hne, ih List.mem_cons_self]
      · exact ih (List.mem_cons_of_mem _ h)

/-- Every key of the path can be written. -/
def Addressable (path : KeyPath) : Prop := ∀ k ∈ path, isAddressable k = true

theorem toList_display (path : KeyPath) :
    path.display.toList = List.intercalate ['.'] (path.map String.toList) := String.toList_ofList

theorem head?_display {k : String} (hk : k.toList ≠ []) (path : KeyPath) :
    (display (k :: path)).toList.head? = k.toList.head? := by
  rw [toList_display]
  cases hcs : k.toList with
  | nil => exact absurd hcs hk
  | cons c cs => cases path <;> simp [List.intercalate_cons_cons, hcs]

/-- **A path is read back** from its written form. -/
theorem parse_display {path : KeyPath} (hne : path ≠ []) (h : path.Addressable) :
    KeyPath.parse path.display.toList = .ok path := by
  have hpieces : ∀ piece ∈ path.map String.toList,
      piece ≠ [] ∧ '.' ∉ piece ∧ '=' ∉ piece := by
    rw [List.forall_mem_map]
    exact fun k hk => isAddressable_iff.1 (h k hk)
  have hsplit := List.splitOn_intercalate '.' (fun piece hp => (hpieces piece hp).2.1)
    (by simpa using hne)
  have hfault : (path.map String.toList).findSome? segmentFault? = none := by
    rw [List.findSome?_eq_none_iff]
    intro piece hp
    obtain ⟨hempty, -, hequals⟩ := hpieces piece hp
    simp [segmentFault?, hempty, hequals]
  have hjoin : List.intercalate ['.'] (path.map String.toList) ≠ [] := by
    intro hnil
    rw [hnil] at hsplit
    have := (hpieces [] (by rw [← hsplit]; simp)).1
    exact this rfl
  rw [toList_display, KeyPath.parse, if_neg (by simpa using hjoin)]
  dsimp only
  rw [hsplit, hfault]
  simp

/-- **What is read as a path is its written form.** -/
theorem parse_eq_ok_iff {text : List Char} {path : KeyPath} :
    KeyPath.parse text = .ok path ↔
      path ≠ [] ∧ path.Addressable ∧ path.display.toList = text := by
  constructor
  · intro h
    rw [KeyPath.parse] at h
    split_ifs at h
    dsimp only at h
    split at h
    · cases h
    · rename_i hfault
      cases h
      refine ⟨by simp, List.forall_mem_map.2 fun piece hp => ?_, ?_⟩
      · have hpiece := List.findSome?_eq_none_iff.1 hfault piece hp
        rw [segmentFault?] at hpiece
        split_ifs at hpiece with hempty hequals
        rw [isAddressable_iff, String.toList_ofList]
        exact ⟨by simpa using hempty, not_mem_of_mem_splitOn hp, by simpa using hequals⟩
      · rw [toList_display, List.map_map]
        simp [Function.comp_def, List.intercalate_splitOn]
  · rintro ⟨hne, h, rfl⟩
    exact parse_display hne h

end KeyPath

namespace Argument

/-! ## Assignments -/

theorem splitEquals_append {before : List Char} (h : '=' ∉ before) (after : List Char) :
    splitEquals (before ++ '=' :: after) = some (before, after) := by
  induction before with
  | nil => rw [List.nil_append, splitEquals, if_pos rfl]
  | cons c before ih =>
    simp only [List.mem_cons, not_or] at h
    rw [List.cons_append, splitEquals, if_neg (Ne.symm h.1), ih h.2]
    rfl

theorem splitEquals_eq_some_iff {cs before after : List Char} :
    splitEquals cs = some (before, after) ↔ '=' ∉ before ∧ cs = before ++ '=' :: after := by
  constructor
  · intro h
    induction cs generalizing before with
    | nil => cases h
    | cons c cs ih =>
      rw [splitEquals] at h
      split_ifs at h with hc
      · cases h
        simp [hc]
      · obtain ⟨⟨before, after⟩, hsplit, he⟩ := Option.map_eq_some_iff.1 h
        cases he
        obtain ⟨hb, rfl⟩ := ih hsplit
        simp [hb, Ne.symm hc]
  · rintro ⟨h, rfl⟩
    exact splitEquals_append h after

theorem toList_assignment (path : KeyPath) (value : String) :
    (assignment path value).toList = path.display.toList ++ '=' :: value.toList := by
  simp [assignment]

theorem readAssignment_assignment {path : KeyPath} (hne : path ≠ []) (h : path.Addressable)
    (value : String) : readAssignment (assignment path value).toList = .ok (path, value) := by
  have hequals : '=' ∉ path.display.toList := by
    rw [KeyPath.toList_display]
    refine KeyPath.not_mem_intercalate (by decide) (List.forall_mem_map.2 fun k hk => ?_)
    exact (isAddressable_iff.1 (h k hk)).2.2
  rw [readAssignment, toList_assignment, splitEquals_append hequals]
  dsimp only
  rw [KeyPath.parse_display hne h]
  simp

/-- **What is read as an assignment is written as it.** -/
theorem readAssignment_eq_ok_iff {cs : List Char} {path : KeyPath} {value : String} :
    readAssignment cs = .ok (path, value) ↔
      path ≠ [] ∧ path.Addressable ∧ (assignment path value).toList = cs := by
  constructor
  · intro h
    rw [readAssignment] at h
    split at h
    · cases h
    · rename_i key after hsplit
      obtain ⟨-, rfl⟩ := splitEquals_eq_some_iff.1 hsplit
      split at h
      · rename_i hparse
        cases h
        obtain ⟨hne, haddr, hkey⟩ := KeyPath.parse_eq_ok_iff.1 hparse
        exact ⟨hne, haddr, by rw [toList_assignment, hkey, String.toList_ofList]⟩
      · cases h
  · rintro ⟨hne, h, rfl⟩
    exact readAssignment_assignment hne h value

theorem head?_assignment {path : KeyPath} (hne : path ≠ []) (h : path.Addressable)
    (value : String) : (assignment path value).toList.head? = path.display.toList.head? := by
  obtain ⟨k, path, rfl⟩ := List.exists_cons_of_ne_nil hne
  have hk := (isAddressable_iff.1 (h k (by simp))).1
  have hdisplay := KeyPath.head?_display hk path
  obtain ⟨c, cs, hcs⟩ := List.exists_cons_of_ne_nil hk
  rw [hcs, List.head?_cons] at hdisplay
  simp [toList_assignment, List.head?_append, hdisplay]

/-- An assignment is written without `--set=` where it can be. -/
theorem guarded_eq {path : KeyPath} (hne : path ≠ []) (h : path.Addressable) (value : String) :
    guarded path value =
      if (assignment path value).toList.head? = some '-' then "--set=" ++ assignment path value
      else assignment path value := by
  rw [guarded, head?_assignment hne h]

/-! ## What is read -/

/-- An argument that can be written: the path it assigns at leads somewhere, through keys that can
be written. -/
def Written (argument : Argument) : Prop :=
  ∀ path, argument.path? = some path → path ≠ [] ∧ path.Addressable

/-- A form makes assignments at the path it is given, or whole trees. -/
def Form.Sound : Form → Prop
  | .assignment make => ∀ path value, (make path value).path? = some path
  | .whole make => ∀ value, (make value).path? = none

theorem sound_of_mem_spellings : ∀ form ∈ spellings, form.2.Sound := by
  simp [spellings, Form.Sound, path?]

theorem exists_spelling_of_findForm? {cs rest : List Char} {form : Form}
    {forms : List (String × Form)} (h : findForm? cs forms = some (form, rest)) :
    ∃ spelling, (spelling, form) ∈ forms ∧ cs = spelling.toList ++ rest := by
  induction forms with
  | nil => cases h
  | cons f forms ih =>
    rw [findForm?] at h
    split at h
    · rename_i after hprefix
      cases h
      exact ⟨f.1, List.mem_cons_self, (List.append_eq_of_isPrefixOf?_eq_some hprefix).symm⟩
    · obtain ⟨spelling, hmem, hcs⟩ := ih h
      exact ⟨spelling, List.mem_cons_of_mem f hmem, hcs⟩

theorem Form.read_assignment_eq_ok_iff {make : KeyPath → String → Argument} {cs : List Char}
    {argument : Argument} :
    (Form.assignment make).read cs = .ok argument ↔
      ∃ (path : KeyPath) (value : String), path ≠ [] ∧ path.Addressable ∧
        (Argument.assignment path value).toList = cs ∧ make path value = argument := by
  rw [Form.read, Outcome.bind_eq_ok]
  constructor
  · rintro ⟨⟨path, value⟩, hread, h⟩
    obtain ⟨hne, haddr, hcs⟩ := readAssignment_eq_ok_iff.1 hread
    exact ⟨path, value, hne, haddr, hcs, Except.ok.inj h⟩
  · rintro ⟨path, value, hne, haddr, hcs, rfl⟩
    exact ⟨(path, value), readAssignment_eq_ok_iff.2 ⟨hne, haddr, hcs⟩, rfl⟩

theorem Form.Sound.written {form : Form} (hform : form.Sound) {cs : List Char}
    {argument : Argument} (h : form.read cs = .ok argument) : argument.Written := by
  cases form with
  | whole make =>
    cases h
    rw [Written, hform]
    nofun
  | assignment make =>
    obtain ⟨path, value, hne, haddr, -, rfl⟩ := read_assignment_eq_ok_iff.1 h
    rw [Written, hform]
    rintro path ⟨⟩
    exact ⟨hne, haddr⟩

/-- **What is read as an argument can be written.** In particular no argument assigns at the
root. -/
theorem written_of_parse {text : String} {argument : Argument}
    (h : Argument.parse text = .ok argument) : argument.Written := by
  rw [Argument.parse] at h
  dsimp only at h
  split at h
  · rename_i form rest hfind
    obtain ⟨spelling, hmem, -⟩ := exists_spelling_of_findForm? hfind
    exact (sound_of_mem_spellings _ hmem).written h
  · split_ifs at h
    have hassign : (Form.assignment .assign).Sound := fun _ _ => rfl
    exact hassign.written h

/-! ## Canonical texts -/

theorem findForm?_eq_none {c : Char} {cs : List Char} (h : cs.head? ≠ some c)
    {forms : List (String × Form)} (hforms : ∀ form ∈ forms, form.1.toList.head? = some c) :
    findForm? cs forms = none := by
  induction forms with
  | nil => rfl
  | cons form forms ih =>
    rw [List.forall_mem_cons] at hforms
    have hprefix : form.1.toList.isPrefixOf? cs = none := by
      have hform := hforms.1
      cases hf : form.1.toList with
      | nil => simp [hf] at hform
      | cons d ds =>
        rw [hf, List.head?_cons, Option.some.injEq] at hform
        cases cs with
        | nil => rfl
        | cons c' cs =>
          have hne : (d == c') = false := by
            rw [beq_eq_false_iff_ne, hform]
            exact fun he => h (by rw [List.head?_cons, he])
          simp [List.isPrefixOf?, hne]
    rw [findForm?, hprefix]
    exact ih hforms.2

theorem head?_spellings : ∀ form ∈ spellings, form.1.toList.head? = some '-' := by
  simp [spellings]

theorem parse_set (text : String) :
    Argument.parse ("--set=" ++ text) = (Form.assignment .assign).read text.toList := by
  simp [Argument.parse, spellings, findForm?, List.isPrefixOf?]

theorem parse_of_head?_ne {text : String} (h : text.toList.head? ≠ some '-') :
    Argument.parse text = (Form.assignment .assign).read text.toList := by
  rw [Argument.parse, findForm?_eq_none h head?_spellings]
  exact if_neg h

theorem parse_display_assign {path : KeyPath} (hne : path ≠ []) (h : path.Addressable)
    (text : String) :
    Argument.parse (Argument.assign path text).display = .ok (.assign path text) := by
  have hread : (Form.assignment .assign).read (assignment path text).toList =
      .ok (.assign path text) := by
    rw [Form.read, readAssignment_assignment hne h]
    rfl
  show Argument.parse (guarded path text) = _
  rw [guarded_eq hne h]
  split_ifs with hdash
  · rw [parse_set, hread]
  · rw [parse_of_head?_ne hdash, hread]

/-- **An argument is read back** from its canonical text when it can be written. -/
theorem parse_display {arg : Argument} (h : arg.Written) :
    Argument.parse arg.display = .ok arg := by
  have hread : ∀ path, arg.path? = some path → ∀ text,
      readAssignment (assignment path text).toList = .ok (path, text) :=
    fun path hp text => readAssignment_assignment (h path hp).1 (h path hp).2 text
  cases arg with
  | assign path text => exact parse_display_assign (h path rfl).1 (h path rfl).2 text
  | assignJson path text =>
    show Argument.parse ("--set-json=" ++ assignment path text) = _
    simp [Argument.parse, spellings, findForm?, List.isPrefixOf?, Form.read, hread path rfl]
  | assignFile path file =>
    show Argument.parse ("--set-from-file=" ++ assignment path file) = _
    simp [Argument.parse, spellings, findForm?, List.isPrefixOf?, Form.read, hread path rfl]
  | assignFactory path id =>
    show Argument.parse ("--set-from-fn=" ++ assignment path id) = _
    simp [Argument.parse, spellings, findForm?, List.isPrefixOf?, Form.read, hread path rfl]
  | wholeFile file =>
    show Argument.parse ("--from-file=" ++ file) = _
    simp [Argument.parse, spellings, findForm?, List.isPrefixOf?, Form.read]
  | wholeFactory id =>
    show Argument.parse ("--from-fn=" ++ id) = _
    simp [Argument.parse, spellings, findForm?, List.isPrefixOf?, Form.read]

end Argument

/-- **What assigns a value at a path is the canonical text of an assignment**, and there is one
exactly when the path leads somewhere and can be written. -/
theorem KeyPath.assignArgument_eq_ok_iff {path : KeyPath} {value : Tree} {arg : String} :
    path.assignArgument value = .ok arg ↔
      path ≠ [] ∧ path.Addressable ∧ arg = (Argument.assign path value.toJson).display := by
  cases path with
  | nil => simp [assignArgument]
  | cons k path =>
    rw [assignArgument]
    cases hfind : (k :: path).find? fun k => !isAddressable k with
    | some l =>
      have hl := List.find?_some hfind
      have hnot : ¬ Addressable (k :: path) := fun h => by
        simp [h l (List.mem_of_find?_eq_some hfind)] at hl
      simp [hnot]
    | none =>
      have haddr : Addressable (k :: path) := by
        intro l hl
        simpa using List.find?_eq_none.1 hfind l hl
      have hhead := head?_display (isAddressable_iff.1 (haddr k (by simp))).1 path
      have hdisplay : (Argument.assign (k :: path) value.toJson).display =
          Argument.guarded (k :: path) value.toJson := rfl
      rw [hdisplay, Argument.guarded, hhead]
      dsimp only
      split_ifs <;> simp [haddr, eq_comm]

namespace Literal

/-! ## Values -/

theorem looksStructured_toJson {t : Tree} (h : 0 < t.depth) : looksStructured t.toJson = true := by
  rw [looksStructured, Tree.toJson, String.toList_ofList]
  induction t with
  | array xs ih => simp [Json.write, structuredChars]
  | object fs ih => simp [Json.write, structuredChars]
  | atom t ih =>
    rw [Tree.depth_atom] at h
    exact ih h
  | _ => simp [Tree.depth] at h

/-- **A value is read back from its text** when it nests no deeper than a text may. -/
theorem parseScalar_toJson {t : Tree} (hw : t.WellFormed) (hi : t.integral = true)
    (hd : t.depth ≤ Json.maxNesting) : parseScalar t.toJson = .ok t.erase := by
  rw [parseScalar, Json.parse_toJson hw hi hd]

theorem parseJson_toJson {t : Tree} (hw : t.WellFormed) (hi : t.integral = true)
    (hd : t.depth ≤ Json.maxNesting) : parseJson t.toJson = .ok t.erase := by
  rw [parseJson, Json.parse_toJson hw hi hd]
  rfl

theorem parseScalar_toJson_eq_error {t : Tree} (hw : t.WellFormed) (hi : t.integral = true)
    (hd : Json.maxNesting < t.depth) :
    ∃ position, parseScalar t.toJson =
      .error (.invalidJson t.toJson ⟨.nestingLimit, position⟩) := by
  obtain ⟨position, he⟩ := Json.parse_toJson_eq_error hw hi hd
  refine ⟨position, ?_⟩
  rw [parseScalar, he]
  exact if_pos (looksStructured_toJson (by omega))

end Literal

end ConfigOverlay
