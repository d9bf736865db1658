import ConfigOverlay.Proofs.Replay

/-!
# When the arguments of a replay compile

A replay starts from whatever a factory makes and its value is bound from, a compilation only from
an object that does not nest too deep. Nothing in a replay asks for that.

**Theorem (`exists_compile_updatesToArguments_iff`).** The arguments of a replay compile exactly
when the factory makes such an object, whatever the updates did. Otherwise the argument of the
factory is refused, by the depth of its value or by the kind.

Over an object, the arguments of the updates are leaves of their snapshots (`steps_leaves`), so they
are all written when the snapshots hold integers and nest no deeper than a text may.
-/

namespace ConfigOverlay

open Outcome

/-! ## Trees that fit into an argument -/

/-- A tree that is read back from its text, which nests no deeper than a text may. -/
structure Tree.Portable (t : Tree) : Prop extends t.Readable where
  depth_le : t.depth ≤ Json.maxNesting

theorem Tree.Portable.field {fs : Fields Tree} (h : (object fs).Portable) :
    ∀ f ∈ fs, f.2.Portable := fun f hf =>
  ⟨h.toReadable.field f hf, Nat.le_trans (Nat.le_of_lt (depth_lt_of_mem_object hf)) h.depth_le⟩

theorem Tree.Portable.unwrap {t : Tree} (h : t.Portable) : t.unwrap.Portable :=
  ⟨h.toReadable.unwrap, (depth_unwrap t).symm ▸ h.depth_le⟩

namespace Replay

variable {σ α : Type} {sources : Sources σ} {answers : Answers} {inv : σ → Prop} {id : String}
  {bind : Tree → Except Error α} {unbind : α → Except Error Tree} {start : Tree}

/-! ## Both ways to start -/

theorem updatesToArguments_eq_ok (hsteady : sources.Steady answers inv) {s : σ} (hs : inv s)
    (hmade : answers.factory id = .ok start) {updates : List (α → α)} {args : List String} {v : α}
    (h : (updatesToArguments sources.factory bind unbind id updates s).1 = .ok (args, v)) :
    ∃ v₀ rest, bind start = .ok v₀ ∧ steps unbind start v₀ updates = .ok (rest, v) ∧
      args = (Argument.wholeFactory id).display :: rest := by
  obtain ⟨s₁, -, hcall⟩ := hsteady.factory id s hs
  rw [hmade] at hcall
  rw [outcome_updatesToArguments (congrArg Prod.fst hcall)] at h
  obtain ⟨v₀, hbind, h⟩ := bind_eq_ok.1 h
  obtain ⟨⟨rest, final⟩, hsteps, h⟩ := bind_eq_ok.1 h
  cases h
  exact ⟨v₀, rest, hbind, hsteps, rfl⟩

theorem compile_wholeFactory_eq_error (hsteady : sources.Steady answers inv) {s : σ} (hs : inv s)
    (hmade : answers.factory id = .ok start) {e : Error}
    (he : wholeEdit .firstOnly .fromFn start = .error e) (rest : List String) :
    (compile sources .firstOnly ((Argument.wholeFactory id).display :: rest) s).1 =
      .error (.invalidArgument 0 (Argument.wholeFactory id).display
        ((Argument.wholeFactory id).display :: rest) e) := by
  obtain ⟨s', -, hstep⟩ := compileStep_eq hsteady .firstOnly 0 .empty
    (Argument.wholeFactory id).display hs
  rw [readEdit_wholeFactory, hmade, ok_bind, he] at hstep
  exact congrArg Prod.fst (compileFrom_cons_eq_error hstep rest)

/-- **Over an object, what was rendered compiles.** -/
theorem exists_compile_steps (hsteady : sources.Steady answers inv) {s : σ} (hs : inv s)
    {fs : Fields Tree} (hmade : answers.factory id = .ok (.object fs))
    (hplain : (Tree.object fs).Plain)
    (hwhole : wholeEdit .firstOnly .fromFn (.object fs) = .ok (.replace (.object fs)))
    {updates : List (α → α)} {v₀ v : α} {rest : List String}
    (hsteps : steps unbind (.object fs) v₀ updates = .ok (rest, v))
    (hsnap : ∀ k, 0 < k → k ≤ updates.length → ∀ w,
      unbind (updated v₀ (updates.take k)) = .ok w → w.Portable) :
    ∃ t, (compile sources .firstOnly ((Argument.wholeFactory id).display :: rest) s).1 =
      .ok t := by
  have ht : Tracks (.object fs) (.object fs) :=
    ⟨hplain, hplain, ⟨fs, rfl⟩, Tree.same_refl hplain.wellFormed⟩
  obtain ⟨es, -, -, hrun, hes, -⟩ := steps_leaves Tree.Portable.toReadable Tree.Portable.field
    Tree.Portable.unwrap ht hsteps hsnap (Nat.le_refl _)
  rw [List.take_length, hsteps] at hrun
  cases hrun
  obtain ⟨s', -, hcompile⟩ := compileFrom_wholeFactory hsteady hmade hwhole hs
    ((Argument.wholeFactory id).display :: es.map rendered) (es.map rendered)
  have hwritten := compileFrom_rendered sources .firstOnly
    ((Argument.wholeFactory id).display :: es.map rendered)
    (fun e he => ⟨(hes e he).1.1, (hes e he).1.2, (hes e he).2.toReadable⟩)
    (fun e he => (hes e he).2.depth_le) [] 1 (.object fs) s'
  rw [List.append_nil] at hwritten
  rw [compile, compileWithCheck, hcompile, hwritten]
  exact ⟨_, rfl⟩

/-! ## Replays -/

/-- **When the arguments of a replay compile.** Let an update sequence be rendered, over a factory
that makes a plain tree, with snapshots that are plain, hold integers only and nest no deeper than a
text may. Then the arguments compile exactly when the factory makes an object that does not nest too
deep. A factory that makes anything else is refused in the first place, whether or not an update has
changed its value into an object. -/
theorem exists_compile_updatesToArguments_iff (hsteady : sources.Steady answers inv)
    (hfactory : ∀ t, answers.factory id = .ok t → t.Plain)
    (hunbind : ∀ v t, unbind v = .ok t → t.Plain) {s s' : σ} (hs : inv s) (hs' : inv s')
    (hmade : answers.factory id = .ok start) {updates : List (α → α)} {args : List String} {v : α}
    (h : (updatesToArguments sources.factory bind unbind id updates s).1 = .ok (args, v))
    (hsnap : ∀ k w, 0 < k → k ≤ updates.length → Snapshot bind unbind start updates k w →
      w.integral = true ∧ w.depth ≤ Json.maxNesting) :
    ((∃ t, (compile sources .firstOnly args s').1 = .ok t) ↔
      start.depth ≤ maxDepth ∧ ∃ fs, start = .object fs) ∧
    (maxDepth < start.depth → (compile sources .firstOnly args s').1 =
      .error (.invalidArgument 0 (Argument.wholeFactory id).display args
        (.tooDeep start.depth))) ∧
    (start.depth ≤ maxDepth → (∀ fs, start ≠ .object fs) →
      (compile sources .firstOnly args s').1 =
        .error (.invalidArgument 0 (Argument.wholeFactory id).display args
          (.notAnObject .fromFn start.kind))) := by
  obtain ⟨v₀, rest, hbind, hsteps, rfl⟩ := updatesToArguments_eq_ok hsteady hs hmade h
  have hplain := hfactory start hmade
  obtain ⟨hd, ⟨fs, rfl⟩, hwhole⟩ | ⟨hd, hwhole⟩ | ⟨hd, hobj, hwhole⟩ :=
    wholeEdit_cases .firstOnly .fromFn hplain.atomFree
  · have hfits : ∀ k, 0 < k → k ≤ updates.length → ∀ w,
        unbind (updated v₀ (updates.take k)) = .ok w → w.Portable := by
      intro k hpos hk w hw
      obtain ⟨hi, hdepth⟩ := hsnap k w hpos hk ⟨v₀, hbind, hw⟩
      exact ⟨⟨hunbind _ w hw, hi⟩, hdepth⟩
    have hcompile := exists_compile_steps hsteady hs' hmade hplain hwhole hsteps hfits
    exact ⟨⟨fun _ => ⟨hd, fs, rfl⟩, fun _ => hcompile⟩, fun hdeep => by omega,
      fun _ hobj => absurd rfl (hobj fs)⟩
  · have herror := compile_wholeFactory_eq_error hsteady hs' hmade hwhole rest
    refine ⟨⟨fun ⟨t, ht⟩ => ?_, fun hok => by omega⟩, fun _ => herror, fun hok => by omega⟩
    rw [herror] at ht
    cases ht
  · have herror := compile_wholeFactory_eq_error hsteady hs' hmade hwhole rest
    refine ⟨⟨fun ⟨t, ht⟩ => ?_, fun ⟨_, fs, he⟩ => absurd he (hobj fs)⟩, fun hdeep => by omega,
      fun _ _ => herror⟩
    rw [herror] at ht
    cases ht

/-- The value of the factory is a list, and the update makes an object of it. -/
theorem exists_compile_updatesToArguments_iff_list :
    let unbind : Bool → Except Error Tree := fun b =>
      .ok (if b then .object [("a", .null)] else .array [.null])
    let bind : Tree → Except Error Bool := fun _ => .ok false
    let start := Tree.array [.null]
    let world : World := ⟨⟨[("list", .constant start)]⟩, fun _ => .error .missing⟩
    let updates : List (Bool → Bool) := [fun _ => true]
    let args := ["--from-fn=list", "a=null"]
    world.registry.Pure ∧ (∀ t, world.answers.factory "list" = .ok t → t.Plain) ∧
      (∀ v t, unbind v = .ok t → t.Plain) ∧ world.answers.factory "list" = .ok start ∧
      (updatesToArguments World.sources.factory bind unbind "list" updates world).1 =
        .ok (args, true) ∧
      (∀ k w, 0 < k → k ≤ updates.length → Snapshot bind unbind start updates k w →
        w.integral = true ∧ w.depth ≤ Json.maxNesting) ∧
      start.depth ≤ maxDepth ∧ (∀ fs, start ≠ .object fs) ∧
      (compile World.sources .firstOnly args world).1 =
        .error (.invalidArgument 0 "--from-fn=list" args (.notAnObject .fromFn .array)) := by
  intro unbind bind start world updates args
  have hw : start.WellFormed := by simp [start]
  obtain ⟨hpure, hplain⟩ := World.pure_and_plain_of_constant hw "list" fun _ => .error .missing
  have hunbind : ∀ v t, unbind v = .ok t → t.Plain := by
    rintro v t ⟨⟩
    cases v
    · exact Tree.plain_array.2 (by simp [Tree.plain_null])
    · exact Tree.plain_object.2 ⟨by simp [Fields.Distinct, Fields.keys], by simp [Tree.plain_null]⟩
  have hmade : world.answers.factory "list" = .ok start := rfl
  have hupdates : (updatesToArguments World.sources.factory bind unbind "list" updates world).1 =
      .ok (args, true) := toOption_eq_some.1 (by decide +kernel)
  have hsnap : ∀ k w, 0 < k → k ≤ updates.length → Snapshot bind unbind start updates k w →
      w.integral = true ∧ w.depth ≤ Json.maxNesting := by
    rintro k w - - ⟨v, -, ⟨⟩⟩
    cases updated v (updates.take k) <;> decide
  have hobj : ∀ fs, start ≠ .object fs := by simp [start]
  obtain ⟨-, -, herror⟩ := exists_compile_updatesToArguments_iff (World.sources_steady world)
    (fun t ht => hplain.factory ht) hunbind ⟨hpure, rfl⟩ ⟨hpure, rfl⟩ hmade hupdates hsnap
  exact ⟨hpure, fun t ht => hplain.factory ht, hunbind, hmade, hupdates, hsnap, by decide, hobj,
    herror (by decide) hobj⟩

/-- Without an update the list is still rendered, as the argument of its factory. -/
theorem not_exists_compile_updatesToArguments_list :
    let start := Tree.array [.number (.int 1 (by decide)), .number (.int 2 (by decide))]
    let world : World := ⟨⟨[("list", .constant start)]⟩, fun _ => .error .missing⟩
    let unchanged : Tree → Except Error Tree := .ok
    world.registry.Pure ∧ start.integral = true ∧ start.depth ≤ Json.maxNesting ∧
      (updatesToArguments World.sources.factory unchanged unchanged "list" [] world).1 =
        .ok (["--from-fn=list"], start) ∧
      ¬ ∃ t, (compile World.sources .firstOnly ["--from-fn=list"] world).1 = .ok t := by
  intro start world unchanged
  have hw : start.WellFormed := by simp [start]
  have hpure := (World.pure_and_plain_of_constant hw "list" fun _ => .error .missing).1
  have hnone : (compile World.sources .firstOnly ["--from-fn=list"] world).1.toOption = none := by
    decide +kernel
  refine ⟨hpure, by decide, by decide, toOption_eq_some.1 (by decide +kernel), ?_⟩
  rintro ⟨t, ht⟩
  rw [ht] at hnone
  cases hnone

end Replay

end ConfigOverlay
