import ConfigOverlay.Compile.Trace
import ConfigOverlay.Proofs.Compilation

/-!
# The first argument that fails

**Theorem (`compileWithCheck_firstFailure`).** Compiling fails exactly when some argument fails
after all before it have passed. The error names that argument, its place and the whole list. What
is loaded, made and checked on the way is what the arguments up to that one load, make and check.

A run is described without its code: an argument *passes* or *fails* from an accumulator and a
state (`Passes`, `Fails`), and a list of arguments *folds* when each of them passes from where the
one before it ended (`Folds`). There is a constructor of `Fails` for every way to fail, in the order
in which they are met, and each says what was done before. The sources and the check are any
actions, so they may answer differently every time.

Every run either folds or stops (`folds_or_stops`), and the code does what the description says
(`Folds.compileFrom_append`, `Fails.compileFrom_cons`). Recording changes nothing but the record:
both are proved for any sources that can be seen as recording ones (`Notes`), of which the plain
ones are an instance that keeps no record.
-/

namespace ConfigOverlay

variable {σ τ : Type}

/-! ## The parts of an argument -/

namespace Argument

/-- A whole tree past the first place, where only the first place may have one. -/
def Misplaced (mode : WholeTreeMode) (index : Nat) (argument : Argument) : Prop :=
  argument.isWholeTree = true ∧ mode = .firstOnly ∧ index ≠ 0

/-- Fetch the value of an argument. -/
def fetch (sources : Sources σ) : Argument → Action σ Tree
  | .assign _ value => .ofExcept (Literal.parseScalar value)
  | .assignJson _ value => .ofExcept (Literal.parseJson value)
  | .assignFile _ file | .wholeFile file => sources.document file
  | .assignFactory _ id | .wholeFactory id => sources.factory id

/-- What fetching the value uses. -/
def uses : Argument → List Event
  | .assign .. | .assignJson .. => []
  | .assignFile _ file | .wholeFile file => [.loaded file]
  | .assignFactory _ id | .wholeFactory id => [.made id]

/-- The accumulator with the value of an argument in its place. -/
def place (mode : WholeTreeMode) (acc value : Tree) (argument : Argument) : Except Error Tree :=
  match argument.path? with
  | some path => assignWithin acc path value
  | none => placeWhole mode argument.flag acc value

variable {sources : Sources σ} {mode : WholeTreeMode} {index : Nat} {acc : Tree}
  {argument : Argument}

theorem applyArgument_of_misplaced (h : argument.Misplaced mode index) :
    applyArgument sources mode index acc argument =
      .ofExcept (.error (.misplacedWholeTree argument.flag)) := by
  obtain ⟨hwhole, rfl, hindex⟩ := h
  cases argument <;> cases hwhole
  all_goals
    rw [applyArgument, checkPosition, if_pos ⟨rfl, hindex⟩]
    rfl

theorem applyArgument_of_not_misplaced (h : ¬ argument.Misplaced mode index) :
    applyArgument sources mode index acc argument =
      (argument.fetch sources >>= fun value => .ofExcept (argument.place mode acc value)) := by
  have hposition : argument.isWholeTree = true → ∀ flag, checkPosition mode index flag = .ok () :=
    fun hwhole flag => if_neg fun hn => h ⟨hwhole, hn⟩
  cases argument with
  | assign path value =>
    rw [applyArgument, fetch]
    cases Literal.parseScalar value <;> rfl
  | assignJson path value =>
    rw [applyArgument, fetch]
    cases Literal.parseJson value <;> rfl
  | assignFile path file => rfl
  | assignFactory path id => rfl
  | wholeFile file =>
    rw [applyArgument, hposition rfl]
    rfl
  | wholeFactory id =>
    rw [applyArgument, hposition rfl]
    rfl

end Argument

namespace Compilation

/-! ## Runs -/

section

variable (sources : Sources σ) (mode : WholeTreeMode) (check : Tree → Action σ Unit)

/-- An argument is applied: it is read, it may stand where it stands, and its value is fetched and
fits. What is left are the accumulator after it, the state, and what was used. -/
inductive Applies (index : Nat) (acc : Tree) (text : String) (s : σ) :
    Tree → σ → List Event → Prop
  | mk {argument : Argument} {value next : Tree} {s' : σ}
    (hparse : Argument.parse text = .ok argument) (hstands : ¬ argument.Misplaced mode index)
    (hfetch : argument.fetch sources s = (.ok value, s'))
    (hplace : argument.place mode acc value = .ok next) :
    Applies index acc text s next s' argument.uses

/-- An argument is applied, and the check accepts the accumulator after it. -/
inductive Passes (index : Nat) (acc : Tree) (text : String) (s : σ) :
    Tree → σ → List Event → Prop
  | mk {next : Tree} {s' s'' : σ} {used : List Event}
    (happlies : Applies sources mode index acc text s next s' used)
    (hcheck : check next s' = (.ok (), s'')) :
    Passes index acc text s next s'' (used ++ [.checked next])

/-- An argument fails with an error. What is left are the state, what was done, and the accumulator
that the check refused, if it was the check that failed. -/
inductive Fails (index : Nat) (acc : Tree) (text : String) (s : σ) :
    Error → σ → List Event → Option Tree → Prop
  /-- It cannot be read. -/
  | unread {e : Error} (hparse : Argument.parse text = .error e) :
    Fails index acc text s e s [] none
  /-- It is a whole tree where none may stand. -/
  | misplaced {argument : Argument} (hparse : Argument.parse text = .ok argument)
    (hmisplaced : argument.Misplaced mode index) :
    Fails index acc text s (.misplacedWholeTree argument.flag) s [] none
  /-- It has no value: the text, the document or the factory gives none. -/
  | missing {argument : Argument} {e : Error} {s' : σ}
    (hparse : Argument.parse text = .ok argument) (hstands : ¬ argument.Misplaced mode index)
    (hfetch : argument.fetch sources s = (.error e, s')) :
    Fails index acc text s e s' argument.uses none
  /-- Its value nests too deep, or is no object where a whole tree is needed. -/
  | unfit {argument : Argument} {value : Tree} {e : Error} {s' : σ}
    (hparse : Argument.parse text = .ok argument) (hstands : ¬ argument.Misplaced mode index)
    (hfetch : argument.fetch sources s = (.ok value, s'))
    (hplace : argument.place mode acc value = .error e) :
    Fails index acc text s e s' argument.uses none
  /-- The check refuses the accumulator after it. -/
  | refused {next : Tree} {e : Error} {s' s'' : σ} {used : List Event}
    (happlies : Applies sources mode index acc text s next s' used)
    (hcheck : check next s' = (.error e, s'')) :
    Fails index acc text s e s'' (used ++ [.checked next]) (some next)

/-- Arguments from an index on all pass, each from where the one before it ended. What is left are
the accumulators after each of them, the state, and what was done. -/
inductive Folds : Nat → Tree → σ → List String → List Tree → σ → List Event → Prop
  | nil {index : Nat} {acc : Tree} {s : σ} : Folds index acc s [] [] s []
  | cons {index : Nat} {acc next : Tree} {s s' s'' : σ} {text : String} {args : List String}
    {trees : List Tree} {done events : List Event}
    (hpasses : Passes sources mode check index acc text s next s' done)
    (hrest : Folds (index + 1) next s' args trees s'' events) :
    Folds index acc s (text :: args) (next :: trees) s'' (done ++ events)

end

variable {sources : Sources σ} {mode : WholeTreeMode} {check : Tree → Action σ Unit} {index : Nat}
  {acc next : Tree} {text : String} {s s' : σ} {events : List Event}

theorem passes_or_fails (index : Nat) (acc : Tree) (text : String) (s : σ) :
    (∃ next s' done, Passes sources mode check index acc text s next s' done) ∨
      ∃ e s' done refused, Fails sources mode check index acc text s e s' done refused := by
  cases hparse : Argument.parse text with
  | error e => exact .inr ⟨e, s, [], none, .unread hparse⟩
  | ok argument =>
    by_cases hmisplaced : argument.Misplaced mode index
    · exact .inr ⟨_, s, [], none, .misplaced hparse hmisplaced⟩
    cases hfetch : argument.fetch sources s with
    | mk x s' =>
      cases x with
      | error e => exact .inr ⟨e, s', _, none, .missing hparse hmisplaced hfetch⟩
      | ok value =>
        cases hplace : argument.place mode acc value with
        | error e => exact .inr ⟨e, s', _, none, .unfit hparse hmisplaced hfetch hplace⟩
        | ok next =>
          have happlies : Applies sources mode index acc text s next s' argument.uses :=
            .mk hparse hmisplaced hfetch hplace
          cases hcheck : check next s' with
          | mk y s'' =>
            cases y with
            | error e => exact .inr ⟨e, s'', _, some next, .refused happlies hcheck⟩
            | ok u => exact .inl ⟨next, s'', _, .mk happlies hcheck⟩

/-- **Arguments fold, or one of them fails** after those before it have folded. -/
theorem folds_or_stops (index : Nat) (acc : Tree) (s : σ) (args : List String) :
    (∃ trees s' events, Folds sources mode check index acc s args trees s' events) ∨
      ∃ before text after trees s' events e s'' done refused, args = before ++ text :: after ∧
        Folds sources mode check index acc s before trees s' events ∧
        Fails sources mode check (index + before.length) (trees.getLastD acc) text s' e s'' done
          refused := by
  induction args generalizing index acc s with
  | nil => exact .inl ⟨[], s, [], .nil⟩
  | cons text args ih =>
    rcases passes_or_fails index acc text s with ⟨next, s', done, hpasses⟩ | hfails
    · rcases ih (index + 1) next s' with ⟨trees, s'', events, hfolds⟩ | hstops
      · exact .inl ⟨_, s'', _, .cons hpasses hfolds⟩
      · obtain ⟨before, text', after, trees, s₁, events, e, s₂, done', refused, rfl, hfolds, hfails⟩
          := hstops
        refine .inr ⟨text :: before, text', after, next :: trees, s₁, _, e, s₂, done', refused, rfl,
          .cons hpasses hfolds, ?_⟩
        rwa [List.length_cons, List.getLastD_cons, Nat.add_comm before.length, ← Nat.add_assoc]
    · obtain ⟨e, s', done, refused, hfails⟩ := hfails
      exact .inr ⟨[], text, args, [], s, [], e, s', done, refused, rfl, .nil, hfails⟩

/-! ## What is done on the way -/

theorem checkedTrees_append (events events' : List Event) :
    checkedTrees (events ++ events') = checkedTrees events ++ checkedTrees events' :=
  List.filterMap_append

theorem checkedTrees_uses (argument : Argument) : checkedTrees argument.uses = [] := by
  cases argument <;> rfl

theorem Applies.checkedTrees_eq (h : Applies sources mode index acc text s next s' events) :
    checkedTrees events = [] := by
  cases h with
  | mk => exact checkedTrees_uses _

theorem Passes.checkedTrees_eq (h : Passes sources mode check index acc text s next s' events) :
    checkedTrees events = [next] := by
  cases h with
  | mk happlies =>
    rw [checkedTrees_append, happlies.checkedTrees_eq]
    rfl

theorem Fails.checkedTrees_eq {e : Error} {refused : Option Tree}
    (h : Fails sources mode check index acc text s e s' events refused) :
    checkedTrees events = refused.toList := by
  cases h with
  | unread => rfl
  | misplaced => rfl
  | missing => exact checkedTrees_uses _
  | unfit => exact checkedTrees_uses _
  | refused happlies =>
    rw [checkedTrees_append, happlies.checkedTrees_eq]
    rfl

/-- **Every accumulator is checked once**, in order. -/
theorem Folds.checkedTrees_eq {args : List String} {trees : List Tree}
    (h : Folds sources mode check index acc s args trees s' events) :
    checkedTrees events = trees := by
  induction h with
  | nil => rfl
  | cons hpasses _ ih =>
    rw [checkedTrees_append, hpasses.checkedTrees_eq, ih, List.singleton_append]

theorem Folds.length_eq {args : List String} {trees : List Tree}
    (h : Folds sources mode check index acc s args trees s' events) :
    trees.length = args.length := by
  induction h with
  | nil => rfl
  | cons _ _ ih => rw [List.length_cons, List.length_cons, ih]

/-- A misplaced whole tree fails before anything is looked up. -/
theorem Fails.of_misplaced {argument : Argument} {e : Error} {refused : Option Tree}
    (h : Fails sources mode check index acc text s e s' events refused)
    (hparse : Argument.parse text = .ok argument) (hmisplaced : argument.Misplaced mode index) :
    e = .misplacedWholeTree argument.flag ∧ s' = s ∧ events = [] := by
  cases h with
  | unread hparse' => cases hparse.symm.trans hparse'
  | misplaced hparse' =>
    cases hparse.symm.trans hparse'
    exact ⟨rfl, rfl, rfl⟩
  | missing hparse' hstands =>
    cases hparse.symm.trans hparse'
    exact absurd hmisplaced hstands
  | unfit hparse' hstands =>
    cases hparse.symm.trans hparse'
    exact absurd hmisplaced hstands
  | refused happlies =>
    cases happlies with
    | mk hparse' hstands =>
      cases hparse.symm.trans hparse'
      exact absurd hmisplaced hstands

/-! ## The code -/

/-- Sources and a check that act on a view of a state and of a record as the given ones act on the
state, and note what they do in the record. -/
structure Notes (sources : Sources σ) (check : Tree → Action σ Unit) (sources' : Sources τ)
    (check' : Tree → Action τ Unit) (view : σ → List Event → τ) : Prop where
  document : ∀ path s events, sources'.document path (view s events) =
    ((sources.document path s).1, view (sources.document path s).2 (events ++ [.loaded path]))
  factory : ∀ id s events, sources'.factory id (view s events) =
    ((sources.factory id s).1, view (sources.factory id s).2 (events ++ [.made id]))
  check : ∀ t s events, check' t (view s events) =
    ((check t s).1, view (check t s).2 (events ++ [.checked t]))

/-- Any sources and check, with a view of the state alone. -/
theorem notes_self : Notes sources check sources check fun s _ => s := by
  constructor <;> exact fun _ _ _ => rfl

/-- The recording ones, with a view of both. -/
theorem notes_recording : Notes sources check sources.recording (recordingCheck check) Prod.mk := by
  constructor <;> exact fun _ _ _ => rfl

variable {sources' : Sources τ} {check' : Tree → Action τ Unit} {view : σ → List Event → τ}

theorem Notes.fetch (hn : Notes sources check sources' check' view) {argument : Argument}
    {x : Except Error Tree} (h : argument.fetch sources s = (x, s')) (events : List Event) :
    argument.fetch sources' (view s events) = (x, view s' (events ++ argument.uses)) := by
  have hfetch : argument.fetch sources' (view s events) = ((argument.fetch sources s).1,
      view (argument.fetch sources s).2 (events ++ argument.uses)) := by
    cases argument with
    | assign => rw [Argument.uses, List.append_nil]; rfl
    | assignJson => rw [Argument.uses, List.append_nil]; rfl
    | assignFile path file => exact hn.document file s events
    | wholeFile file => exact hn.document file s events
    | assignFactory path id => exact hn.factory id s events
    | wholeFactory id => exact hn.factory id s events
  rw [hfetch, h]

theorem Notes.check_eq (hn : Notes sources check sources' check' view) {t : Tree}
    {x : Except Error Unit} (h : check t s = (x, s')) (events : List Event) :
    check' t (view s events) = (x, view s' (events ++ [.checked t])) := by
  rw [hn.check, h]

theorem Applies.compileStep_eq (h : Applies sources mode index acc text s next s' events)
    (hn : Notes sources check sources' check' view) (before : List Event) :
    compileStep sources' mode check' index acc text (view s before) =
      (check' next >>= fun _ => pure next) (view s' (before ++ events)) := by
  cases h with
  | mk hparse hstands hfetch hplace =>
    rw [compileStep_of_parse hparse, Argument.applyArgument_of_not_misplaced hstands]
    refine Action.bind_of_ok ((Action.bind_of_ok (hn.fetch hfetch before) _).trans ?_) _
    rw [hplace]
    rfl

theorem Passes.compileStep_eq (h : Passes sources mode check index acc text s next s' events)
    (hn : Notes sources check sources' check' view) (before : List Event) :
    compileStep sources' mode check' index acc text (view s before) =
      (.ok next, view s' (before ++ events)) := by
  cases h with
  | mk happlies hcheck =>
    rw [happlies.compileStep_eq hn, ← List.append_assoc]
    exact Action.bind_of_ok (hn.check_eq hcheck _) _

theorem Fails.compileStep_eq {e : Error} {refused : Option Tree}
    (h : Fails sources mode check index acc text s e s' events refused)
    (hn : Notes sources check sources' check' view) (before : List Event) :
    compileStep sources' mode check' index acc text (view s before) =
      (.error e, view s' (before ++ events)) := by
  cases h with
  | unread hparse =>
    rw [compileStep, hparse, List.append_nil]
    exact Action.bind_of_error rfl _
  | misplaced hparse hmisplaced =>
    rw [compileStep_of_parse hparse, Argument.applyArgument_of_misplaced hmisplaced,
      List.append_nil]
    exact Action.bind_of_error rfl _
  | missing hparse hstands hfetch =>
    rw [compileStep_of_parse hparse, Argument.applyArgument_of_not_misplaced hstands]
    exact Action.bind_of_error (Action.bind_of_error (hn.fetch hfetch before) _) _
  | unfit hparse hstands hfetch hplace =>
    rw [compileStep_of_parse hparse, Argument.applyArgument_of_not_misplaced hstands]
    refine Action.bind_of_error ((Action.bind_of_ok (hn.fetch hfetch before) _).trans ?_) _
    rw [hplace]
    rfl
  | refused happlies hcheck =>
    rw [happlies.compileStep_eq hn, ← List.append_assoc]
    exact Action.bind_of_error (hn.check_eq hcheck _) _

/-- **What folds is folded**, and then the rest goes on. -/
theorem Folds.compileFrom_append {args : List String} {trees : List Tree}
    (h : Folds sources mode check index acc s args trees s' events)
    (hn : Notes sources check sources' check' view) (all rest : List String)
    (before : List Event) :
    compileFrom sources' mode check' all index acc (args ++ rest) (view s before) =
      compileFrom sources' mode check' all (index + args.length) (trees.getLastD acc) rest
        (view s' (before ++ events)) := by
  induction h generalizing before with
  | nil => simp
  | @cons index acc next s s₁ s₂ text args trees done events hpasses _ ih =>
    rw [List.cons_append, ConfigOverlay.compileFrom_cons (hpasses.compileStep_eq hn before), ih,
      List.append_assoc, List.length_cons, List.getLastD_cons, Nat.add_right_comm, Nat.add_assoc]

/-- **What fails stops the run**, whatever comes after it. -/
theorem Fails.compileFrom_cons {e : Error} {refused : Option Tree}
    (h : Fails sources mode check index acc text s e s' events refused)
    (hn : Notes sources check sources' check' view) (all rest : List String)
    (before : List Event) :
    compileFrom sources' mode check' all index acc (text :: rest) (view s before) =
      (.error (.invalidArgument index text all e), view s' (before ++ events)) :=
  compileFrom_cons_eq_error (h.compileStep_eq hn before) rest

theorem Folds.compileWithCheck_eq {args : List String} {trees : List Tree}
    (h : Folds sources mode check 0 .empty s args trees s' events)
    (hn : Notes sources check sources' check' view) :
    compileWithCheck sources' mode check' args (view s []) =
      (.ok (trees.getLastD .empty), view s' events) := by
  have hrun := h.compileFrom_append hn args [] []
  rwa [List.append_nil] at hrun

theorem Fails.compileWithCheck_eq {before : List String} {trees : List Tree} {e : Error}
    {s'' : σ} {done : List Event} {refused : Option Tree}
    (h : Fails sources mode check before.length (trees.getLastD .empty) text s' e s'' done refused)
    (hfolds : Folds sources mode check 0 .empty s before trees s' events)
    (hn : Notes sources check sources' check' view) (after : List String) :
    compileWithCheck sources' mode check' (before ++ text :: after) (view s []) =
      (.error (.invalidArgument before.length text (before ++ text :: after) e),
        view s'' (events ++ done)) := by
  have hrun := hfolds.compileFrom_append hn (before ++ text :: after) (text :: after) []
  rw [Nat.zero_add] at hrun
  exact hrun.trans (h.compileFrom_cons hn _ after events)

/-! ## How runs end -/

variable {args : List String}

theorem Notes.run_eq_ok_iff (hn : Notes sources check sources' check' view) {t : Tree} {x : τ} :
    compileWithCheck sources' mode check' args (view s []) = (.ok t, x) ↔
      ∃ trees s' events, Folds sources mode check 0 .empty s args trees s' events ∧
        t = trees.getLastD .empty ∧ x = view s' events := by
  constructor
  · intro h
    rcases folds_or_stops 0 .empty s args with ⟨trees, s₁, events, hfolds⟩ | hstops
    · cases h.symm.trans (hfolds.compileWithCheck_eq hn)
      exact ⟨trees, s₁, events, hfolds, rfl, rfl⟩
    · obtain ⟨before, text, after, trees, s₁, events₁, e, s₂, events₂, refused, rfl, hfolds,
        hfails⟩ := hstops
      rw [Nat.zero_add] at hfails
      cases h.symm.trans (hfails.compileWithCheck_eq hfolds hn after)
  · rintro ⟨trees, s', events, hfolds, rfl, rfl⟩
    exact hfolds.compileWithCheck_eq hn

theorem Notes.run_eq_error_iff (hn : Notes sources check sources' check' view) {e : Error} {x : τ} :
    compileWithCheck sources' mode check' args (view s []) = (.error e, x) ↔
      ∃ before text after trees s₁ events₁ cause s₂ events₂ refused,
        args = before ++ text :: after ∧
        Folds sources mode check 0 .empty s before trees s₁ events₁ ∧
        Fails sources mode check before.length (trees.getLastD .empty) text s₁ cause s₂ events₂
          refused ∧
        e = .invalidArgument before.length text args cause ∧ x = view s₂ (events₁ ++ events₂) := by
  constructor
  · intro h
    rcases folds_or_stops 0 .empty s args with ⟨trees, s₁, events₁, hfolds⟩ | hstops
    · cases h.symm.trans (hfolds.compileWithCheck_eq hn)
    · obtain ⟨before, text, after, trees, s₁, events₁, cause, s₂, events₂, refused, rfl, hfolds,
        hfails⟩ := hstops
      rw [Nat.zero_add] at hfails
      cases h.symm.trans (hfails.compileWithCheck_eq hfolds hn after)
      exact ⟨before, text, after, trees, s₁, events₁, cause, s₂, events₂, refused, rfl, hfolds,
        hfails, rfl, rfl⟩
  · rintro ⟨before, text, after, trees, s₁, events₁, cause, s₂, events₂, refused, rfl, hfolds,
      hfails, rfl, rfl⟩
    exact hfails.compileWithCheck_eq hfolds hn after

/-! ## Recorded runs -/

/-- A run and the same run with a record end alike. -/
theorem exists_recorded (sources : Sources σ) (mode : WholeTreeMode) (check : Tree → Action σ Unit)
    (args : List String) (s : σ) :
    ∃ events, compileWithCheck sources.recording mode (recordingCheck check) args (s, []) =
      ((compileWithCheck sources mode check args s).1,
        (compileWithCheck sources mode check args s).2, events) := by
  cases hrun : compileWithCheck sources mode check args s with
  | mk outcome s' =>
    cases outcome with
    | ok t =>
      obtain ⟨trees, s', events, hfolds, rfl, rfl⟩ := notes_self.run_eq_ok_iff.1 hrun
      exact ⟨events, hfolds.compileWithCheck_eq notes_recording⟩
    | error e =>
      obtain ⟨before, text, after, trees, s₁, events₁, cause, s₂, events₂, refused, rfl, hfolds,
        hfails, rfl, rfl⟩ := notes_self.run_eq_error_iff.1 hrun
      exact ⟨events₁ ++ events₂, hfails.compileWithCheck_eq hfolds notes_recording after⟩

theorem recorded_eq_ok_iff {t : Tree} :
    compileWithCheck sources.recording mode (recordingCheck check) args (s, []) =
        (.ok t, s', events) ↔
      ∃ trees, Folds sources mode check 0 .empty s args trees s' events ∧
        t = trees.getLastD .empty := by
  refine notes_recording.run_eq_ok_iff.trans ⟨?_, ?_⟩
  · rintro ⟨trees, s', events, hfolds, rfl, ⟨⟩⟩
    exact ⟨trees, hfolds, rfl⟩
  · rintro ⟨trees, hfolds, rfl⟩
    exact ⟨trees, s', events, hfolds, rfl, rfl⟩

theorem recorded_eq_error_iff {e : Error} :
    compileWithCheck sources.recording mode (recordingCheck check) args (s, []) =
        (.error e, s', events) ↔
      ∃ before text after trees s₁ events₁ cause events₂ refused,
        args = before ++ text :: after ∧
        Folds sources mode check 0 .empty s before trees s₁ events₁ ∧
        Fails sources mode check before.length (trees.getLastD .empty) text s₁ cause s' events₂
          refused ∧
        e = .invalidArgument before.length text args cause ∧ events = events₁ ++ events₂ := by
  refine notes_recording.run_eq_error_iff.trans ⟨?_, ?_⟩
  · rintro ⟨before, text, after, trees, s₁, events₁, cause, s₂, events₂, refused, rfl, hfolds,
      hfails, rfl, ⟨⟩⟩
    exact ⟨before, text, after, trees, s₁, events₁, cause, events₂, refused, rfl, hfolds, hfails,
      rfl, rfl⟩
  · rintro ⟨before, text, after, trees, s₁, events₁, cause, events₂, refused, rfl, hfolds, hfails,
      rfl, rfl⟩
    exact ⟨before, text, after, trees, s₁, events₁, cause, s', events₂, refused, rfl, hfolds,
      hfails, rfl, rfl⟩

/-! ## Longer lists -/

theorem compileWithCheck_append_of_ok {t : Tree}
    (h : compileWithCheck sources mode check args s = (.ok t, s')) (rest : List String) :
    compileWithCheck sources mode check (args ++ rest) s =
      compileFrom sources mode check (args ++ rest) args.length t rest s' := by
  obtain ⟨trees, s₁, events, hfolds, rfl, rfl⟩ := notes_self.run_eq_ok_iff.1 h
  have hrun := hfolds.compileFrom_append notes_self (args ++ rest) rest []
  rwa [Nat.zero_add] at hrun

/-- A longer list fails where its beginning fails, for the same cause. -/
theorem compileWithCheck_append_of_error {e : Error}
    (h : compileWithCheck sources mode check args s = (.error e, s')) :
    ∃ index text cause, index < args.length ∧ e = .invalidArgument index text args cause ∧
      ∀ rest, compileWithCheck sources mode check (args ++ rest) s =
        (.error (.invalidArgument index text (args ++ rest) cause), s') := by
  obtain ⟨before, text, after, trees, s₁, events₁, cause, s₂, events₂, refused, rfl, hfolds, hfails,
    rfl, rfl⟩ := notes_self.run_eq_error_iff.1 h
  refine ⟨before.length, text, cause, by simp, rfl, fun rest => ?_⟩
  rw [List.append_assoc, List.cons_append]
  exact hfails.compileWithCheck_eq hfolds notes_self (after ++ rest)

end Compilation

open Compilation

/-- **The first argument that fails, exactly.** A run and the same run with a record end alike, and
they end in one of two ways. Either all arguments fold, and the tree is the last accumulator. Or
those before some argument fold and that argument fails: the error is the argument's own, with its
place, its text and all arguments, and the record holds what the arguments before it did and then
what it did itself, so nothing was done for the arguments after it. The check sees each accumulator
once and in order, the refused one included, and a misplaced whole tree does nothing at all. -/
theorem compileWithCheck_firstFailure (sources : Sources σ) (mode : WholeTreeMode)
    (check : Tree → Action σ Unit) (args : List String) (s : σ) :
    let run := compileWithCheck sources mode check args s
    let recorded := compileWithCheck sources.recording mode (recordingCheck check) args (s, [])
    (∃ events, recorded = (run.1, run.2, events)) ∧
    (∀ t s' events, recorded = (.ok t, s', events) ↔
      ∃ trees, Folds sources mode check 0 .empty s args trees s' events ∧
        t = trees.getLastD .empty ∧ checkedTrees events = trees ∧ trees.length = args.length) ∧
    ∀ e s' events, recorded = (.error e, s', events) ↔
      ∃ before text after trees s₁ events₁ cause events₂ refused,
        args = before ++ text :: after ∧
        Folds sources mode check 0 .empty s before trees s₁ events₁ ∧
        Fails sources mode check before.length (trees.getLastD .empty) text s₁ cause s' events₂
          refused ∧
        e = .invalidArgument before.length text args cause ∧ events = events₁ ++ events₂ ∧
        checkedTrees events = trees ++ refused.toList ∧ trees.length = before.length ∧
        ∀ argument, Argument.parse text = .ok argument → argument.Misplaced mode before.length →
          cause = .misplacedWholeTree argument.flag ∧ s' = s₁ ∧ events₂ = [] := by
  refine ⟨exists_recorded sources mode check args s, fun t s' events => ⟨?_, ?_⟩,
    fun e s' events => ⟨?_, ?_⟩⟩
  · intro h
    obtain ⟨trees, hfolds, ht⟩ := recorded_eq_ok_iff.1 h
    exact ⟨trees, hfolds, ht, hfolds.checkedTrees_eq, hfolds.length_eq⟩
  · rintro ⟨trees, hfolds, ht, -, -⟩
    exact recorded_eq_ok_iff.2 ⟨trees, hfolds, ht⟩
  · intro h
    obtain ⟨before, text, after, trees, s₁, events₁, cause, events₂, refused, hargs, hfolds, hfails,
      he, hevents⟩ := recorded_eq_error_iff.1 h
    have hchecked : checkedTrees events = trees ++ refused.toList := by
      rw [hevents, checkedTrees_append, hfolds.checkedTrees_eq, hfails.checkedTrees_eq]
    exact ⟨before, text, after, trees, s₁, events₁, cause, events₂, refused, hargs, hfolds, hfails,
      he, hevents, hchecked, hfolds.length_eq, fun _ => hfails.of_misplaced⟩
  · rintro ⟨before, text, after, trees, s₁, events₁, cause, events₂, refused, hargs, hfolds, hfails,
      he, hevents, -, -, -⟩
    exact recorded_eq_error_iff.2 ⟨before, text, after, trees, s₁, events₁, cause, events₂, refused,
      hargs, hfolds, hfails, he, hevents⟩

end ConfigOverlay
