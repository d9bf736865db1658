import ConfigOverlay.Compile.Basic
import ConfigOverlay.Proofs.Assign
import ConfigOverlay.Proofs.Json.Plain
import ConfigOverlay.Proofs.Merge

/-!
# Compiling as a list of edits

When documents and factories always answer alike, what an argument does to the accumulator does
not depend on the accumulator. An argument is then an *edit*, or an error, by itself, and
compiling is two things done one after the other: read all arguments as edits, and apply the edits
to the empty object (`compile_eq`). Later proofs about compiling are proofs about lists of edits.

An edit writes or merges one tree. When that tree is plain the edit keeps plain trees plain
(`Edit.plain_apply`), and it always respects equality (`Edit.apply_same`).
-/

namespace ConfigOverlay

open Outcome

variable {σ α β : Type}

theorem withinDepth_eq_ok_iff {value t : Tree} :
    withinDepth value = .ok t ↔ value.depth ≤ maxDepth ∧ value = t := by
  unfold withinDepth
  split_ifs with h
  · simp [Nat.not_le_of_lt h]
  · simp [Nat.le_of_not_lt h]

/-! ## Steady sources -/

/-- What documents and factories answer when each of them always answers alike. -/
structure Answers where
  document : String → Except Error Tree
  factory : String → Except Error Tree

/-- Documents and factories give plain trees. -/
structure Answers.Plain (answers : Answers) : Prop where
  document : ∀ {path t}, answers.document path = .ok t → t.Plain
  factory : ∀ {id t}, answers.factory id = .ok t → t.Plain

/-- Sources that give the same answers in every state of an invariant, and keep the invariant. -/
structure Sources.Steady (sources : Sources σ) (answers : Answers) (inv : σ → Prop) : Prop where
  document : ∀ path s, inv s → ∃ s', inv s' ∧ sources.document path s = (answers.document path, s')
  factory : ∀ id s, inv s → ∃ s', inv s' ∧ sources.factory id s = (answers.factory id, s')

/-! ## Edits -/

/-- What an argument does to the accumulator. -/
inductive Edit where
  | assign (path : KeyPath) (value : Tree)
  | replace (whole : Tree)
  | merge (whole : Tree)

namespace Edit

/-- The tree that is written or merged. -/
def tree : Edit → Tree
  | .assign _ value => value
  | .replace whole => whole
  | .merge whole => whole

/-- The accumulator after the edit. -/
def apply : Edit → Tree → Tree
  | .assign path value, acc => Tree.assign path value acc
  | .replace whole, _ => whole
  | .merge whole, acc => acc.merge whole

/-- The accumulator after edits one after the other. -/
def applyAll (edits : List Edit) (acc : Tree) : Tree := edits.foldl (fun acc e => e.apply acc) acc

@[simp] theorem applyAll_nil (acc : Tree) : applyAll [] acc = acc := rfl

@[simp] theorem applyAll_cons (e : Edit) (es : List Edit) (acc : Tree) :
    applyAll (e :: es) acc = applyAll es (e.apply acc) := rfl

theorem applyAll_append (es es' : List Edit) (acc : Tree) :
    applyAll (es ++ es') acc = applyAll es' (applyAll es acc) := List.foldl_append

theorem plain_apply {e : Edit} {acc : Tree} (he : e.tree.Plain) (ha : acc.Plain) :
    (e.apply acc).Plain := by
  cases e with
  | assign path value => exact Tree.hereditary_plain.assign he ha path
  | replace whole => exact he
  | merge whole => exact ha.mergeAt he 0

theorem plain_applyAll {es : List Edit} {acc : Tree} (hes : ∀ e ∈ es, e.tree.Plain)
    (ha : acc.Plain) : (applyAll es acc).Plain := by
  induction es generalizing acc with
  | nil => exact ha
  | cons e es ih =>
    rw [List.forall_mem_cons] at hes
    exact ih hes.2 (plain_apply hes.1 ha)

theorem apply_same {e : Edit} {a b : Tree} (he : e.tree.WellFormed) (ha : a.WellFormed)
    (hb : b.WellFormed) (h : a.same b = true) : (e.apply a).same (e.apply b) = true := by
  have hrefl := Tree.same_refl he
  cases e with
  | assign path value => exact Tree.assign_same ha hb hrefl h path
  | replace whole => exact hrefl
  | merge whole => exact Tree.mergeAt_same Policy.never_respectful ha hb he he h hrefl 0

theorem applyAll_same {es : List Edit} {a b : Tree} (hes : ∀ e ∈ es, e.tree.Plain)
    (ha : a.Plain) (hb : b.Plain) (h : a.same b = true) :
    (applyAll es a).same (applyAll es b) = true := by
  induction es generalizing a b with
  | nil => exact h
  | cons e es ih =>
    rw [List.forall_mem_cons] at hes
    have hstep := apply_same hes.1.wellFormed ha.wellFormed hb.wellFormed h
    exact ih hes.2 (plain_apply hes.1 ha) (plain_apply hes.1 hb) hstep

end Edit

/-! ## Reading arguments as edits -/

/-- How a whole tree enters the accumulator. -/
def WholeTreeMode.place : WholeTreeMode → Tree → Edit
  | .firstOnly => .replace
  | .mergeAnywhere => .merge

/-- The edit of a whole tree. -/
def wholeEdit (mode : WholeTreeMode) (flag : Flag) (whole : Tree) : Except Error Edit := do
  let whole := (← withinDepth whole).unwrap
  match whole with
  | .object _ => .ok (mode.place whole)
  | _ => .error (.notAnObject flag whole.kind)

/-- **A whole tree is an object that does not nest too deep.** Everything else is refused, by its
depth first and then by its kind. -/
theorem wholeEdit_cases (mode : WholeTreeMode) (flag : Flag) {t : Tree} (ha : t.atomFree = true) :
    (t.depth ≤ maxDepth ∧ (∃ fs, t = .object fs) ∧
      wholeEdit mode flag t = .ok (mode.place t)) ∨
    (maxDepth < t.depth ∧ wholeEdit mode flag t = .error (.tooDeep t.depth)) ∨
    (t.depth ≤ maxDepth ∧ (∀ fs, t ≠ .object fs) ∧
      wholeEdit mode flag t = .error (.notAnObject flag t.kind)) := by
  rw [wholeEdit]
  by_cases hd : maxDepth < t.depth
  · rw [withinDepth, if_pos hd]
    exact .inr (.inl ⟨hd, rfl⟩)
  · rw [withinDepth, if_neg hd, ok_bind, Tree.unwrap_of_atomFree ha]
    cases t with
    | object fs => exact .inl ⟨Nat.le_of_not_lt hd, ⟨fs, rfl⟩, rfl⟩
    | _ => exact .inr (.inr ⟨Nat.le_of_not_lt hd, by nofun, rfl⟩)

namespace Answers

variable (answers : Answers) (mode : WholeTreeMode)

/-- The edit of an argument. -/
def edit (index : Nat) (argument : Argument) : Except Error Edit :=
  match argument with
  | .assign path value => do return .assign path (← withinDepth (← Literal.parseScalar value))
  | .assignJson path value => do return .assign path (← withinDepth (← Literal.parseJson value))
  | .assignFile path file => do return .assign path (← withinDepth (← answers.document file))
  | .assignFactory path id => do return .assign path (← withinDepth (← answers.factory id))
  | .wholeFile file => do
    checkPosition mode index argument.flag
    wholeEdit mode argument.flag (← answers.document file)
  | .wholeFactory id => do
    checkPosition mode index argument.flag
    wholeEdit mode argument.flag (← answers.factory id)

/-- The edit that a text writes. -/
def readEdit (index : Nat) (text : String) : Except Error Edit := do
  answers.edit mode index (← Argument.parse text)

/-- The edits that texts write, the first of which stands at an index; errors quote the whole
list. -/
def readEdits (all : List String) : Nat → List String → Except Error (List Edit)
  | _, [] => .ok []
  | index, text :: rest => do
    let e ← (answers.readEdit mode index text).mapError (Error.atArgument index text all)
    let es ← readEdits all (index + 1) rest
    return e :: es

end Answers

/-! ## Compiling -/

section

variable {sources : Sources σ} {mode : WholeTreeMode} {check : Tree → Action σ Unit} {index : Nat}
  {acc : Tree} {text : String} {s s' : σ}

theorem compileStep_of_parse {argument : Argument} (h : Argument.parse text = .ok argument) :
    compileStep sources mode check index acc text =
      (applyArgument sources mode index acc argument >>= fun next =>
        check next >>= fun _ => pure next) := by
  rw [compileStep, h]
  rfl

theorem compileFrom_cons {all : List String} {next : Tree}
    (h : compileStep sources mode check index acc text s = (.ok next, s')) (rest : List String) :
    compileFrom sources mode check all index acc (text :: rest) s =
      compileFrom sources mode check all (index + 1) next rest s' := by
  rw [compileFrom]
  exact Action.bind_of_ok (Action.mapError_of_ok h _) _

theorem compileFrom_cons_eq_error {all : List String} {e : Error}
    (h : compileStep sources mode check index acc text s = (.error e, s')) (rest : List String) :
    compileFrom sources mode check all index acc (text :: rest) s =
      (.error (.invalidArgument index text all e), s') := by
  rw [compileFrom]
  exact Action.bind_of_error (Action.mapError_of_error h _) _

theorem compileFrom_cons_eq_ok {all rest : List String} {t : Tree} :
    compileFrom sources mode check all index acc (text :: rest) s = (.ok t, s') ↔
      ∃ next s₁, compileStep sources mode check index acc text s = (.ok next, s₁) ∧
        compileFrom sources mode check all (index + 1) next rest s₁ = (.ok t, s') := by
  cases hstep : compileStep sources mode check index acc text s with
  | mk outcome s₁ =>
    cases outcome with
    | ok next => simp [compileFrom_cons hstep]
    | error e => simp [compileFrom_cons_eq_error hstep]

end

section

variable {sources : Sources σ} {answers : Answers} {inv : σ → Prop} {mode : WholeTreeMode}

theorem assignWithin_eq (acc : Tree) (path : KeyPath) (x : Except Error Tree) :
    (do assignWithin acc path (← x)) =
      (do return Edit.assign path (← withinDepth (← x)) : Except Error Edit).map (·.apply acc) := by
  cases x with
  | error e => rfl
  | ok t =>
    simp only [ok_bind, assignWithin]
    cases withinDepth t <;> rfl

theorem placeWhole_eq (mode : WholeTreeMode) (flag : Flag) (acc : Tree) (x : Except Error Tree) :
    (do placeWhole mode flag acc (← x)) =
      (do wholeEdit mode flag (← x) : Except Error Edit).map (·.apply acc) := by
  cases x with
  | error e => rfl
  | ok t =>
    simp only [ok_bind, placeWhole, wholeEdit]
    cases withinDepth t with
    | error e => rfl
    | ok t =>
      simp only [ok_bind]
      cases t.unwrap <;> cases mode <;> rfl

theorem run_bind_ofExcept {fetch : Action σ α} {s s' : σ} {x : Except Error α}
    (h : fetch s = (x, s')) (f : α → Except Error β) :
    (fetch >>= fun a => Action.ofExcept (f a)) s = (x >>= f, s') := by
  cases x with
  | error e => exact Action.bind_of_error h _
  | ok a => exact Action.bind_of_ok h _

/-- A whole tree is placed as its edit says, and is not fetched where it may not stand. -/
theorem run_placeWhole {fetch : Action σ Tree} {s : σ} {x : Except Error Tree} (hs : inv s)
    (h : ∃ s', inv s' ∧ fetch s = (x, s')) (index : Nat) (flag : Flag) (acc : Tree) :
    ∃ s', inv s' ∧ (do
        .ofExcept (checkPosition mode index flag)
        .ofExcept (placeWhole mode flag acc (← fetch)) : Action σ Tree) s =
      ((do
        checkPosition mode index flag
        wholeEdit mode flag (← x) : Except Error Edit).map (·.apply acc), s') := by
  obtain ⟨s', hs', h⟩ := h
  cases hp : checkPosition mode index flag with
  | error e => exact ⟨s, hs, rfl⟩
  | ok _ =>
    refine ⟨s', hs', ?_⟩
    rw [ok_bind, ← placeWhole_eq]
    exact run_bind_ofExcept h _

/-- **An argument does what its edit does.** -/
theorem applyArgument_eq (h : sources.Steady answers inv) (mode : WholeTreeMode) (index : Nat)
    (acc : Tree) (argument : Argument) {s : σ} (hs : inv s) :
    ∃ s', inv s' ∧ applyArgument sources mode index acc argument s =
      ((answers.edit mode index argument).map (·.apply acc), s') := by
  cases argument with
  | assign path value => exact ⟨s, hs, congrArg (·, s) (assignWithin_eq acc path _)⟩
  | assignJson path value => exact ⟨s, hs, congrArg (·, s) (assignWithin_eq acc path _)⟩
  | assignFile path file =>
    obtain ⟨s', hs', hf⟩ := h.document file s hs
    refine ⟨s', hs', ?_⟩
    rw [Answers.edit, ← assignWithin_eq]
    exact run_bind_ofExcept hf _
  | assignFactory path id =>
    obtain ⟨s', hs', hf⟩ := h.factory id s hs
    refine ⟨s', hs', ?_⟩
    rw [Answers.edit, ← assignWithin_eq]
    exact run_bind_ofExcept hf _
  | wholeFile file => exact run_placeWhole hs (h.document file s hs) index _ acc
  | wholeFactory id => exact run_placeWhole hs (h.factory id s hs) index _ acc

theorem compileStep_eq (h : sources.Steady answers inv) (mode : WholeTreeMode) (index : Nat)
    (acc : Tree) (text : String) {s : σ} (hs : inv s) :
    ∃ s', inv s' ∧ compileStep sources mode (fun _ => pure ()) index acc text s =
      ((answers.readEdit mode index text).map (·.apply acc), s') := by
  cases hp : Argument.parse text with
  | error e =>
    refine ⟨s, hs, ?_⟩
    rw [compileStep, Answers.readEdit, hp]
    rfl
  | ok argument =>
    obtain ⟨s', hs', ha⟩ := applyArgument_eq h mode index acc argument hs
    refine ⟨s', hs', ?_⟩
    rw [compileStep_of_parse hp, Answers.readEdit, hp, ok_bind]
    cases he : answers.edit mode index argument with
    | error e =>
      rw [he] at ha
      exact Action.bind_of_error ha _
    | ok e =>
      rw [he] at ha
      exact Action.bind_of_ok ha _

theorem compileFrom_eq (h : sources.Steady answers inv) (mode : WholeTreeMode)
    (all : List String) (index : Nat) (acc : Tree) (args : List String) {s : σ} (hs : inv s) :
    ∃ s', inv s' ∧ compileFrom sources mode (fun _ => pure ()) all index acc args s =
      ((answers.readEdits mode all index args).map (Edit.applyAll · acc), s') := by
  induction args generalizing index acc s with
  | nil => exact ⟨s, hs, rfl⟩
  | cons text args ih =>
    obtain ⟨s', hs', hstep⟩ := compileStep_eq h mode index acc text hs
    rw [Answers.readEdits]
    cases hread : answers.readEdit mode index text with
    | error e =>
      rw [hread] at hstep
      exact ⟨s', hs', compileFrom_cons_eq_error hstep args⟩
    | ok e =>
      rw [hread] at hstep
      obtain ⟨s'', hs'', hrest⟩ := ih (index + 1) (e.apply acc) hs'
      refine ⟨s'', hs'', (compileFrom_cons hstep args).trans (hrest.trans (congrArg (·, s'') ?_))⟩
      show _ = Except.map _ (answers.readEdits mode all (index + 1) args >>= _)
      cases answers.readEdits mode all (index + 1) args <;> rfl

/-- **Compiling reads all arguments as edits and applies them to the empty object.** -/
theorem compile_eq (h : sources.Steady answers inv) (mode : WholeTreeMode) (args : List String)
    {s : σ} (hs : inv s) :
    ∃ s', inv s' ∧ compile sources mode args s =
      ((answers.readEdits mode args 0 args).map (Edit.applyAll · .empty), s') :=
  compileFrom_eq h mode args 0 .empty args hs

theorem compile_eq_ok_iff (h : sources.Steady answers inv) {args : List String} {s : σ}
    (hs : inv s) {t : Tree} :
    (compile sources mode args s).1 = .ok t ↔
      ∃ es, answers.readEdits mode args 0 args = .ok es ∧ Edit.applyAll es .empty = t := by
  obtain ⟨s', -, he⟩ := compile_eq h mode args hs
  rw [he]
  exact map_eq_ok

end

/-! ## Lists of edits -/

namespace Answers

variable {answers : Answers} {mode : WholeTreeMode}

theorem plain_of_readEdit (ha : answers.Plain) {index : Nat} {text : String} {e : Edit}
    (h : answers.readEdit mode index text = .ok e) : e.tree.Plain := by
  have hwithin : ∀ {t t' : Tree}, t.Plain → withinDepth t = .ok t' → t'.Plain := by
    intro t t' ht h
    obtain ⟨-, rfl⟩ := withinDepth_eq_ok_iff.1 h
    exact ht
  have hassign : ∀ {path : KeyPath} {x : Except Error Tree}, (∀ t, x = .ok t → t.Plain) →
      (do return Edit.assign path (← withinDepth (← x))) = .ok e → e.tree.Plain := by
    intro path x hx h
    obtain ⟨t, ht, h⟩ := bind_eq_ok.1 h
    obtain ⟨t', ht', h⟩ := bind_eq_ok.1 h
    cases h
    exact hwithin (hx t ht) ht'
  have hwhole : ∀ {flag : Flag} {x : Except Error Tree}, (∀ t, x = .ok t → t.Plain) →
      (do wholeEdit mode flag (← x)) = .ok e → e.tree.Plain := by
    intro flag x hx h
    obtain ⟨t, ht, h⟩ := bind_eq_ok.1 h
    obtain ⟨t', ht', h⟩ := bind_eq_ok.1 h
    have hplain := Tree.hereditary_plain.unwrap (hwithin (hx t ht) ht')
    generalize t'.unwrap = w at h hplain
    cases w <;> cases h
    cases mode <;> exact hplain
  obtain ⟨argument, -, h⟩ := bind_eq_ok.1 h
  cases argument with
  | assign path value => exact hassign (fun t ht => Literal.plain_of_parseScalar ht) h
  | assignJson path value => exact hassign (fun t ht => Literal.plain_of_parseJson ht) h
  | assignFile path file => exact hassign (fun t ht => ha.document ht) h
  | assignFactory path id => exact hassign (fun t ht => ha.factory ht) h
  | wholeFile file =>
    obtain ⟨-, -, h⟩ := bind_eq_ok.1 h
    exact hwhole (fun t ht => ha.document ht) h
  | wholeFactory id =>
    obtain ⟨-, -, h⟩ := bind_eq_ok.1 h
    exact hwhole (fun t ht => ha.factory ht) h

theorem exists_assign_of_readEdit {index : Nat} {text : String} {argument : Argument}
    {path : KeyPath} {e : Edit} (hparse : Argument.parse text = .ok argument)
    (hpath : argument.path? = some path) (h : answers.readEdit mode index text = .ok e) :
    ∃ value, e = .assign path value := by
  rw [readEdit, hparse, ok_bind] at h
  cases argument <;> cases hpath
  all_goals
    obtain ⟨t, -, h⟩ := bind_eq_ok.1 h
    obtain ⟨t', -, h⟩ := bind_eq_ok.1 h
    cases h
    exact ⟨t', rfl⟩

theorem readEdit_of_path {text : String} {argument : Argument} {path : KeyPath}
    (hparse : Argument.parse text = .ok argument) (hpath : argument.path? = some path)
    (index index' : Nat) :
    answers.readEdit mode index text = answers.readEdit mode index' text := by
  rw [readEdit, readEdit, hparse, ok_bind, ok_bind]
  cases argument <;> cases hpath <;> rfl

/-- What may stand past the first place may stand anywhere, and does the same there. -/
theorem readEdit_of_succ {index : Nat} {text : String} {e : Edit}
    (h : answers.readEdit mode (index + 1) text = .ok e) (index' : Nat) :
    answers.readEdit mode index' text = .ok e := by
  have hpos : ∀ {flag u}, checkPosition mode (index + 1) flag = .ok u →
      checkPosition mode index' flag = .ok u := by
    intro flag u h
    unfold checkPosition at h ⊢
    split_ifs at h with hn
    have hmode : mode ≠ .firstOnly := fun hm => hn ⟨hm, by omega⟩
    rw [if_neg fun hn' => hmode hn'.1]
  unfold readEdit at h ⊢
  obtain ⟨argument, hp, h⟩ := bind_eq_ok.1 h
  rw [hp, ok_bind]
  cases argument with
  | wholeFile file =>
    obtain ⟨u, hu, h⟩ := bind_eq_ok.1 h
    exact bind_eq_ok.2 ⟨u, hpos hu, h⟩
  | wholeFactory id =>
    obtain ⟨u, hu, h⟩ := bind_eq_ok.1 h
    exact bind_eq_ok.2 ⟨u, hpos hu, h⟩
  | _ => exact h

variable {all all' : List String}

theorem readEdits_cons_eq_ok {index : Nat} {text : String} {rest : List String}
    {es : List Edit} :
    answers.readEdits mode all index (text :: rest) = .ok es ↔
      ∃ e es', answers.readEdit mode index text = .ok e ∧
        answers.readEdits mode all (index + 1) rest = .ok es' ∧ es = e :: es' := by
  rw [readEdits, bind_eq_ok]
  simp only [mapError_eq_ok, bind_eq_ok, pure_eq_ok, Except.ok.injEq]
  constructor
  · rintro ⟨e, he, es', hes, rfl⟩
    exact ⟨e, es', he, hes, rfl⟩
  · rintro ⟨e, es', he, hes, rfl⟩
    exact ⟨e, he, es', hes, rfl⟩

theorem plain_of_readEdits (ha : answers.Plain) {index : Nat} {args : List String}
    {es : List Edit} (h : answers.readEdits mode all index args = .ok es) :
    ∀ e ∈ es, e.tree.Plain := by
  induction args generalizing index es with
  | nil =>
    cases h
    simp
  | cons text rest ih =>
    obtain ⟨e, es, he, hes, rfl⟩ := readEdits_cons_eq_ok.1 h
    exact List.forall_mem_cons.2 ⟨plain_of_readEdit ha he, ih hes⟩

theorem getElem?_of_readEdits {index : Nat} {args : List String} {es : List Edit}
    (h : answers.readEdits mode all index args = .ok es) {k : Nat} {text : String}
    (hk : args[k]? = some text) :
    ∃ e, es[k]? = some e ∧ answers.readEdit mode (index + k) text = .ok e := by
  induction args generalizing index es k with
  | nil => simp at hk
  | cons arg rest ih =>
    obtain ⟨e, es, he, hes, rfl⟩ := readEdits_cons_eq_ok.1 h
    cases k with
    | zero =>
      cases hk
      exact ⟨e, rfl, he⟩
    | succ k =>
      obtain ⟨e', he', h'⟩ := ih hes hk
      exact ⟨e', he', by rwa [Nat.add_right_comm] at h'⟩

theorem readEdits_of_succ {index : Nat} {args : List String} {es : List Edit}
    (h : answers.readEdits mode all (index + 1) args = .ok es) (index' : Nat) :
    answers.readEdits mode all' index' args = .ok es := by
  induction args generalizing index index' es with
  | nil => exact h
  | cons text rest ih =>
    obtain ⟨e, es, he, hes, rfl⟩ := readEdits_cons_eq_ok.1 h
    exact readEdits_cons_eq_ok.2 ⟨e, es, readEdit_of_succ he index', ih hes (index' + 1), rfl⟩

/-- The edits do not depend on the list that errors quote. -/
theorem readEdits_all {index : Nat} {args : List String} {es : List Edit}
    (h : answers.readEdits mode all index args = .ok es) :
    answers.readEdits mode all' index args = .ok es := by
  induction args generalizing index es with
  | nil => exact h
  | cons text rest ih =>
    obtain ⟨e, es, he, hes, rfl⟩ := readEdits_cons_eq_ok.1 h
    exact readEdits_cons_eq_ok.2 ⟨e, es, he, ih hes, rfl⟩

theorem readEdits_append_eq_ok {index : Nat} {args rest : List String} {es : List Edit} :
    answers.readEdits mode all index (args ++ rest) = .ok es ↔
      ∃ es₁ es₂, answers.readEdits mode all index args = .ok es₁ ∧
        answers.readEdits mode all (index + args.length) rest = .ok es₂ ∧ es = es₁ ++ es₂ := by
  induction args generalizing index es with
  | nil => simp [readEdits]
  | cons text args ih =>
    rw [List.cons_append, readEdits_cons_eq_ok, List.length_cons, Nat.add_comm args.length,
      ← Nat.add_assoc]
    constructor
    · rintro ⟨e, es, he, hes, rfl⟩
      obtain ⟨es₁, es₂, h₁, h₂, rfl⟩ := ih.1 hes
      exact ⟨e :: es₁, es₂, readEdits_cons_eq_ok.2 ⟨e, es₁, he, h₁, rfl⟩, h₂, rfl⟩
    · rintro ⟨es₁, es₂, h₁, h₂, rfl⟩
      obtain ⟨e, es₁, he, hes₁, rfl⟩ := readEdits_cons_eq_ok.1 h₁
      exact ⟨e, es₁ ++ es₂, he, ih.2 ⟨es₁, es₂, hes₁, h₂, rfl⟩, rfl⟩

theorem readEdits_eraseIdx {index : Nat} {args : List String} {es : List Edit}
    (h : answers.readEdits mode all index args = .ok es) (k : Nat) :
    answers.readEdits mode all' index (args.eraseIdx k) = .ok (es.eraseIdx k) := by
  induction args generalizing index es k with
  | nil =>
    cases h
    rfl
  | cons text rest ih =>
    obtain ⟨e, es, he, hes, rfl⟩ := readEdits_cons_eq_ok.1 h
    cases k with
    | zero => exact readEdits_of_succ hes index
    | succ k => exact readEdits_cons_eq_ok.2 ⟨e, es.eraseIdx k, he, ih hes k, rfl⟩

end Answers

end ConfigOverlay
