import ConfigOverlay.Proofs.Compilation
import ConfigOverlay.Proofs.Decode
import ConfigOverlay.Proofs.World

/-!
# Rendered overlays compile back

Rendering an object writes one assignment for each of its leaves, and it does so exactly when the
keys at the root can be written (`toArguments_object`, `toArguments_cases`). An assignment that
was rendered is read back as its path and its value (`compileStep_rendered`), so compiling what
was rendered writes the leaves one after the other (`compileFrom_rendered`).

**Theorem (`compile_toArguments`).** Compiled over the empty tree, the arguments of an object give
the object back, with its keys in order, as long as every leaf nests no deeper than a JSON text
may. One leaf that nests deeper makes an argument that is refused: an object can nest to
`maxDepth`, a text only to `Json.maxNesting`.
-/

namespace ConfigOverlay

open Outcome

/-! ## Rendering -/

/-- The argument that writes a leaf at its path. -/
def rendered (e : KeyPath × Tree) : String := (Argument.assign e.1 e.2.toJson).display

/-- A tree that is read back from its text: a plain one whose numbers are integers. -/
structure Tree.Readable (t : Tree) : Prop where
  plain : t.Plain
  integral : t.integral = true

theorem Tree.Readable.field {fs : Fields Tree} (h : (object fs).Readable) :
    ∀ f ∈ fs, f.2.Readable :=
  fun f hf => ⟨(plain_object.1 h.plain).2 f hf, integral_object.1 h.integral f hf⟩

theorem Tree.Readable.unwrap {t : Tree} (h : t.Readable) : t.unwrap.Readable := by
  rw [unwrap_of_atomFree h.plain.atomFree]
  exact h

/-- A leaf that an argument can hold: one that is read back, at a path that can be written. -/
structure Assignable (e : KeyPath × Tree) : Prop where
  path_ne_nil : e.1 ≠ []
  addressable : KeyPath.Addressable e.1
  readable : e.2.Readable

theorem mapM_assignArgument {es : List (KeyPath × Tree)}
    (h : ∀ e ∈ es, e.1 ≠ [] ∧ KeyPath.Addressable e.1) :
    (es.mapM fun e => e.1.assignArgument e.2) = .ok (es.map rendered) := by
  induction es with
  | nil => rfl
  | cons e es ih =>
    rw [List.forall_mem_cons] at h
    have he : e.1.assignArgument e.2 = .ok (rendered e) :=
      KeyPath.assignArgument_eq_ok_iff.2 ⟨h.1.1, h.1.2, rfl⟩
    rw [List.mapM_cons, he, ih h.2]
    rfl

namespace Tree

theorem forall_mem_decode {P : Tree → Prop} (hfield : ∀ {fs}, P (object fs) → ∀ f ∈ fs, P f.2)
    (hunwrap : ∀ {t}, P t → P t.unwrap) {fs : Fields Tree}
    (hk : ∀ k ∈ fs.keys, isAddressable k = true) (h : P (object fs)) :
    ∀ e ∈ decode (object fs), (e.1 ≠ [] ∧ KeyPath.Addressable e.1) ∧ P e.2 := by
  rw [decode_object hk, forall_mem_fieldBranches]
  intro f hf e he
  obtain ⟨hpath, hleaf⟩ := forall_mem_branches hfield hunwrap (hfield h f hf) e he
  have hkey := hk f.1 (Fields.mem_keys_of_mem hf)
  exact ⟨⟨by simp, List.forall_mem_cons.2 ⟨hkey, hpath⟩⟩, hleaf⟩

theorem path_of_mem_decode {fs : Fields Tree} (hk : ∀ k ∈ fs.keys, isAddressable k = true) :
    ∀ e ∈ decode (object fs), e.1 ≠ [] ∧ KeyPath.Addressable e.1 := fun e he =>
  (forall_mem_decode (P := fun _ => True) (fun _ _ _ => trivial) (fun _ => trivial) hk trivial e
    he).1

/-- **An object is rendered when the keys at its root can be written**, whatever stands below. -/
theorem toArguments_object {fs : Fields Tree} (hk : ∀ k ∈ fs.keys, isAddressable k = true) :
    (object fs).toArguments = .ok ((object fs).decode.map rendered) :=
  mapM_assignArgument (path_of_mem_decode hk)

theorem toArguments_object_of_not {fs : Fields Tree}
    (hk : ¬ ∀ k ∈ fs.keys, isAddressable k = true) :
    (object fs).toArguments = .error .unrepresentableRoot := by
  rw [toArguments, decode_object_of_not hk]
  rfl

/-- **An overlay is rendered or replaces the root.** It is rendered when it is an object with keys
that can be written, as the leaves of the object. -/
theorem toArguments_cases (t : Tree) :
    (∃ fs : Fields Tree, t = object fs ∧ (∀ k ∈ fs.keys, isAddressable k = true) ∧
      t.toArguments = .ok (t.decode.map rendered)) ∨
    t.toArguments = .error .unrepresentableRoot := by
  cases t with
  | object fs =>
    by_cases hk : ∀ k ∈ Fields.keys fs, isAddressable k = true
    · exact .inl ⟨fs, rfl, hk, toArguments_object hk⟩
    · exact .inr (toArguments_object_of_not hk)
  | _ => exact .inr rfl

theorem exists_object_of_toArguments {t : Tree} {args : List String}
    (h : t.toArguments = .ok args) :
    ∃ fs : Fields Tree, t = object fs ∧ (∀ k ∈ fs.keys, isAddressable k = true) ∧
      args = (object fs).decode.map rendered := by
  obtain ⟨fs, rfl, hk, hargs⟩ | herror := toArguments_cases t
  · rw [hargs] at h
    exact ⟨fs, rfl, hk, (Except.ok.inj h).symm⟩
  · rw [herror] at h
    cases h

theorem assignable_of_mem_decode {fs : Fields Tree} (h : (object fs).Readable)
    (hk : ∀ k ∈ fs.keys, isAddressable k = true) : ∀ e ∈ decode (object fs), Assignable e := by
  intro e he
  obtain ⟨⟨hne, hpath⟩, hleaf⟩ := forall_mem_decode Readable.field Readable.unwrap hk h e he
  exact ⟨hne, hpath, hleaf⟩

end Tree

/-! ## Compiling what was rendered -/

section

variable {σ : Type} (sources : Sources σ) (mode : WholeTreeMode)

theorem compileStep_assign {text value : String} {path : KeyPath}
    (h : Argument.parse text = .ok (.assign path value)) (index : Nat) (acc : Tree) (s : σ) :
    compileStep sources mode (fun _ => pure ()) index acc text s =
      ((do assignWithin acc path (← Literal.parseScalar value)), s) := by
  rw [compileStep_of_parse h, applyArgument]
  cases (do assignWithin acc path (← Literal.parseScalar value)) with
  | error e => exact Action.bind_of_error rfl _
  | ok next => exact Action.bind_of_ok rfl _

/-- **An assignment in its canonical text writes its value**, without atoms. -/
theorem compileStep_display {path : KeyPath} {value : Tree} (hne : path ≠ [])
    (haddr : path.Addressable) (hw : value.WellFormed) (hi : value.integral = true)
    (hd : value.depth ≤ Json.maxNesting) (index : Nat) (acc : Tree) (s : σ) :
    compileStep sources mode (fun _ => pure ()) index acc
      (Argument.assign path value.toJson).display s =
      (.ok (Tree.assign path value.erase acc), s) := by
  have hparse := Argument.parse_display_assign hne haddr value.toJson
  have hwithin : withinDepth value.erase = .ok value.erase := by
    have hle : Json.maxNesting ≤ maxDepth := by decide
    exact withinDepth_eq_ok_iff.2 ⟨Tree.depth_erase value ▸ Nat.le_trans hd hle, rfl⟩
  rw [compileStep_assign sources mode hparse, Literal.parseScalar_toJson hw hi hd, ok_bind,
    assignWithin, hwithin]
  rfl

/-- **A rendered assignment writes its value at its path.** -/
theorem compileStep_rendered {e : KeyPath × Tree} (he : Assignable e)
    (hd : e.2.depth ≤ Json.maxNesting) (index : Nat) (acc : Tree) (s : σ) :
    compileStep sources mode (fun _ => pure ()) index acc (rendered e) s =
      (.ok (Tree.assign e.1 e.2 acc), s) := by
  have hstep := compileStep_display sources mode he.path_ne_nil he.addressable
    he.readable.plain.wellFormed he.readable.integral hd index acc s
  rwa [Tree.erase_of_atomFree he.readable.plain.atomFree] at hstep

theorem compileStep_rendered_eq_error {e : KeyPath × Tree} (he : Assignable e)
    (hd : Json.maxNesting < e.2.depth) (index : Nat) (acc : Tree) (s : σ) :
    ∃ position, compileStep sources mode (fun _ => pure ()) index acc (rendered e) s =
      (.error (.invalidJson e.2.toJson ⟨.nestingLimit, position⟩), s) := by
  have hparse := Argument.parse_display_assign he.path_ne_nil he.addressable e.2.toJson
  obtain ⟨position, hvalue⟩ :=
    Literal.parseScalar_toJson_eq_error he.readable.plain.wellFormed he.readable.integral hd
  refine ⟨position, ?_⟩
  rw [rendered, compileStep_assign sources mode hparse, hvalue]
  rfl

variable (all : List String)

/-- **Rendered leaves are written one after the other**, before the rest of the arguments. -/
theorem compileFrom_rendered {es : List (KeyPath × Tree)} (hes : ∀ e ∈ es, Assignable e)
    (hd : ∀ e ∈ es, e.2.depth ≤ Json.maxNesting) (rest : List String) (index : Nat) (acc : Tree)
    (s : σ) :
    compileFrom sources mode (fun _ => pure ()) all index acc (es.map rendered ++ rest) s =
      compileFrom sources mode (fun _ => pure ()) all (index + es.length) (Tree.assignAll es acc)
        rest s := by
  induction es generalizing index acc with
  | nil => rfl
  | cons e es ih =>
    rw [List.forall_mem_cons] at hes hd
    have hstep := compileStep_rendered sources mode hes.1 hd.1 index acc s
    rw [List.map_cons, List.cons_append, compileFrom_cons hstep, ih hes.2 hd.2,
      Tree.assignAll_cons, List.length_cons, Nat.add_right_comm, Nat.add_assoc]

/-- **A leaf that nests too deep ends the compilation**, in an error that names it. -/
theorem compileFrom_rendered_eq_error {es : List (KeyPath × Tree)} (hes : ∀ e ∈ es, Assignable e)
    (hd : ∃ e ∈ es, Json.maxNesting < e.2.depth) (index : Nat) (acc : Tree) (s : σ) :
    ∃ i, ∃ e ∈ es, ∃ position, Json.maxNesting < e.2.depth ∧
      compileFrom sources mode (fun _ => pure ()) all index acc (es.map rendered) s =
        (.error (.invalidArgument i (rendered e) all
          (.invalidJson e.2.toJson ⟨.nestingLimit, position⟩)), s) := by
  induction es generalizing index acc with
  | nil => simp at hd
  | cons e es ih =>
    rw [List.forall_mem_cons] at hes
    rw [List.map_cons]
    by_cases he : Json.maxNesting < e.2.depth
    · obtain ⟨position, hstep⟩ :=
        compileStep_rendered_eq_error sources mode hes.1 he index acc s
      exact ⟨index, e, by simp, position, he, compileFrom_cons_eq_error hstep _⟩
    · have hrest : ∃ e ∈ es, Json.maxNesting < e.2.depth := by simpa [he] using hd
      have hstep := compileStep_rendered sources mode hes.1 (Nat.le_of_not_lt he) index acc s
      obtain ⟨i, e', he', position, hdeep, hrun⟩ :=
        ih hes.2 hrest (index + 1) (Tree.assign e.1 e.2 acc)
      exact ⟨i, e', by simp [he'], position, hdeep, (compileFrom_cons hstep _).trans hrun⟩

/-- **Rendered overlays compile back**, exactly as far as JSON texts nest. A plain object of
integers is rendered when the keys at its root can be written, and otherwise reported as an overlay
that replaces the root. What was rendered compiles to the object, in either mode and with whatever
sources, when no leaf nests deeper than a text may. Otherwise the argument of a leaf that does is
refused. -/
theorem compile_toArguments {fs : Fields Tree} (hp : (Tree.object fs).Plain)
    (hi : (Tree.object fs).integral = true) (s : σ) :
    (¬ (∀ k ∈ fs.keys, isAddressable k = true) →
      (Tree.object fs).toArguments = .error .unrepresentableRoot) ∧
    ((∀ k ∈ fs.keys, isAddressable k = true) →
      ∃ args, (Tree.object fs).toArguments = .ok args ∧
        ((∀ e ∈ (Tree.object fs).decode, e.2.depth ≤ Json.maxNesting) →
          compile sources mode args s = (.ok (.object fs), s)) ∧
        ((∃ e ∈ (Tree.object fs).decode, Json.maxNesting < e.2.depth) →
          ∃ i, ∃ e ∈ (Tree.object fs).decode, ∃ position, Json.maxNesting < e.2.depth ∧
            compile sources mode args s =
              (.error (.invalidArgument i (rendered e) args
                (.invalidJson e.2.toJson ⟨.nestingLimit, position⟩)), s))) := by
  refine ⟨Tree.toArguments_object_of_not, fun hk => ⟨_, Tree.toArguments_object hk, ?_, ?_⟩⟩
  · intro hd
    have hrun := compileFrom_rendered sources mode ((Tree.object fs).decode.map rendered)
      (Tree.assignable_of_mem_decode ⟨hp, hi⟩ hk) hd [] 0 .empty s
    rw [List.append_nil, Tree.assignAll_decode hp hk] at hrun
    exact hrun
  · intro hd
    exact compileFrom_rendered_eq_error sources mode _
      (Tree.assignable_of_mem_decode ⟨hp, hi⟩ hk) hd 0 .empty s

/-- **A written assignment is read back as it was meant.** A value is assigned at a path by an
argument exactly when the path leads somewhere and all its keys can be written. Whatever the keys
and the texts in the value hold, the argument is read as the assignment at this path and as nothing
else; its text is the value without atoms, taken as JSON or as a plain value; and compiled by
itself it gives the tree whose only branch leads to that value. -/
theorem compile_assignArgument (path : KeyPath) {value : Tree} (hw : value.WellFormed)
    (hi : value.integral = true) (hd : value.depth ≤ Json.maxNesting) (s : σ) :
    ((∃ arg, path.assignArgument value = .ok arg) ↔
      path ≠ [] ∧ ∀ k ∈ path, k ≠ "" ∧ '.' ∉ k.toList ∧ '=' ∉ k.toList) ∧
    ∀ arg, path.assignArgument value = .ok arg →
      ∃ text, Argument.parse arg = .ok (.assign path text) ∧
        Literal.parseScalar text = .ok value.erase ∧ Literal.parseJson text = .ok value.erase ∧
        compile sources mode [arg] s = (.ok (Tree.encode path value.erase), s) := by
  have haddr : path.Addressable ↔ ∀ k ∈ path, k ≠ "" ∧ '.' ∉ k.toList ∧ '=' ∉ k.toList := by
    simp only [KeyPath.Addressable, isAddressable_iff, ne_eq, String.toList_eq_nil_iff]
  refine ⟨?_, fun arg harg => ?_⟩
  · rw [← haddr]
    simp [KeyPath.assignArgument_eq_ok_iff]
  · obtain ⟨hne, hpath, rfl⟩ := KeyPath.assignArgument_eq_ok_iff.1 harg
    refine ⟨value.toJson, Argument.parse_display_assign hne hpath value.toJson,
      Literal.parseScalar_toJson hw hi hd, Literal.parseJson_toJson hw hi hd, ?_⟩
    have hstep := compileStep_display sources mode hne hpath hw hi hd 0 .empty s
    rw [Tree.assign_eq_encode rfl] at hstep
    exact compileFrom_cons hstep []

/-- The path starts like a flag and the value holds what looks like assignments and paths. -/
theorem compile_assignArgument_flag :
    let path : KeyPath := ["--from-fn", "Ünit "]
    let value := Tree.array [.text "a.b=\"--set=\\\n", .atom (.object [("x.y=", .atom .null)])]
    let world : World := ⟨.empty, fun _ => .error .missing⟩
    value.WellFormed ∧ value.integral = true ∧ value.depth ≤ Json.maxNesting ∧
      ∃ arg text, path.assignArgument value = .ok arg ∧
        Argument.parse arg = .ok (.assign path text) ∧
        compile World.sources .firstOnly [arg] world =
          (.ok (Tree.encode path value.erase), world) := by
  intro path value world
  have hw : value.WellFormed := by simp [value, Fields.Distinct, Fields.keys]
  have hi : value.integral = true := by decide
  have hd : value.depth ≤ Json.maxNesting := by decide
  obtain ⟨hexists, hread⟩ :=
    compile_assignArgument World.sources .firstOnly path hw hi hd world
  obtain ⟨arg, harg⟩ := hexists.2 (by decide)
  obtain ⟨text, hparse, -, -, hrun⟩ := hread arg harg
  exact ⟨hw, hi, hd, arg, text, harg, hparse, hrun⟩

end

/-- A key with a dash in front, a text with an equals sign and a dot, an empty object and an object
that is a leaf for its key. -/
theorem compile_toArguments_dashed :
    let overlay := Tree.object [("-v", .number (.int 2 (by decide))),
      ("db", .object [("url", .text "a=b.c"), ("pool", .object [])]),
      ("log", .object [("a.b", .array [.null])])]
    let world : World := ⟨.empty, fun _ => .error .missing⟩
    overlay.Plain ∧ overlay.integral = true ∧
      ∃ args, overlay.toArguments = .ok args ∧
        compile World.sources .firstOnly args world = (.ok overlay, world) := by
  intro overlay world
  have hp : overlay.Plain :=
    ⟨by simp [overlay, Fields.Distinct, Fields.keys], by decide⟩
  have hi : overlay.integral = true := by decide
  obtain ⟨args, hargs, hrun, -⟩ :=
    (compile_toArguments World.sources .firstOnly hp hi world).2 (by decide)
  exact ⟨hp, hi, args, hargs, hrun (by decide)⟩

/-- **An object within the depth limit need not compile back**: 128 arrays nest in its only leaf. -/
theorem exists_compile_toArguments_ne :
    let overlay := Tree.object [("a", Nat.repeat (fun t => .array [t]) 128 .null)]
    let world : World := ⟨.empty, fun _ => .error .missing⟩
    overlay.Plain ∧ overlay.integral = true ∧ overlay.depth ≤ maxDepth ∧
      ∃ args, overlay.toArguments = .ok args ∧
        (compile World.sources .firstOnly args world).1 ≠ .ok overlay := by
  intro overlay world
  have hnest : ∀ n, (Nat.repeat (fun t => Tree.array [t]) n .null).Plain ∧
      (Nat.repeat (fun t => Tree.array [t]) n .null).integral = true := by
    intro n
    induction n with
    | zero => exact ⟨Tree.plain_null, rfl⟩
    | succ n ih =>
      exact ⟨Tree.plain_array.2 (by simpa using ih.1), by simpa [Nat.repeat] using ih.2⟩
  have hp : overlay.Plain :=
    Tree.plain_object.2 ⟨by simp [Fields.Distinct, Fields.keys], by simpa using (hnest 128).1⟩
  have hi : overlay.integral = true := by simpa [overlay] using (hnest 128).2
  have hk : ∀ k ∈ Fields.keys [("a", Nat.repeat (fun t => Tree.array [t]) 128 .null)],
      isAddressable k = true := by
    simp [Fields.keys, isAddressable]
  have hdeep : ∃ e ∈ overlay.decode, Json.maxNesting < e.2.depth :=
    ⟨(["a"], Nat.repeat (fun t => Tree.array [t]) 128 .null), by decide +kernel, by decide +kernel⟩
  obtain ⟨i, e, -, position, -, hrun⟩ := compileFrom_rendered_eq_error World.sources .firstOnly
    (overlay.decode.map rendered) (Tree.assignable_of_mem_decode ⟨hp, hi⟩ hk) hdeep 0 .empty world
  refine ⟨hp, hi, by decide +kernel, _, Tree.toArguments_object hk, ?_⟩
  show (compileFrom _ _ _ _ _ _ _ _).1 ≠ _
  rw [hrun]
  rintro ⟨⟩

end ConfigOverlay
