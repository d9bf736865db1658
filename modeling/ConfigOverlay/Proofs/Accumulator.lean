import ConfigOverlay.Proofs.Argument
import ConfigOverlay.Proofs.Depth
import ConfigOverlay.Proofs.FirstFailure
import ConfigOverlay.Proofs.World

/-!
# What the accumulator can be

**Theorem (`compileWithCheck_accumulator`).** Every tree that is handed to the check, and the tree
that compiling gives, is an object without atoms, and nests no deeper than `maxDepth` and the
longest path assigned so far together.

The limit on depth is asked of the values that come in, never of the accumulator. A whole tree
merges without making anything deeper, so only an assignment can go past the limit, by at most the
length of its path, and the next one starts again from the limit of its own value: the lengths do
not add up. The rest is one lemma for what a placed value does (`Accumulator.place`) and one
induction along the arguments that fold (`Folds.accumulator`).
-/

namespace ConfigOverlay

variable {σ : Type}

/-! ## Sources of plain trees -/

/-- In every state of an invariant, sources give plain trees and keep the invariant. -/
structure Sources.GivePlain (sources : Sources σ) (inv : σ → Prop) : Prop where
  document : ∀ path s, inv s → inv (sources.document path s).2 ∧
    ∀ t, (sources.document path s).1 = .ok t → t.Plain
  factory : ∀ id s, inv s → inv (sources.factory id s).2 ∧
    ∀ t, (sources.factory id s).1 = .ok t → t.Plain

/-- **A world gives plain trees** as long as its factories make plain trees, each time anew. -/
theorem World.sources_givePlain :
    sources.GivePlain fun w => ∀ f ∈ w.registry.factories, ∀ n t, f.2.make n = .ok t → t.Plain where
  document _ _ hs := ⟨hs, fun _ => plain_of_loadDocument⟩
  factory id _ hs :=
    ⟨Registry.forall_make_of_resolve (P := fun make => ∀ n t, make n = .ok t → t.Plain) hs id,
      fun _ => Registry.of_resolve_eq_ok hs⟩

theorem Sources.GivePlain.fetch {sources : Sources σ} {inv : σ → Prop} (h : sources.GivePlain inv)
    {s s' : σ} (hs : inv s) {argument : Argument} {x : Except Error Tree}
    (hfetch : argument.fetch sources s = (x, s')) : inv s' ∧ ∀ t, x = .ok t → t.Plain := by
  obtain ⟨rfl, rfl⟩ := Prod.mk.inj hfetch
  cases argument with
  | assign path value => exact ⟨hs, fun _ => Literal.plain_of_parseScalar⟩
  | assignJson path value => exact ⟨hs, fun _ => Literal.plain_of_parseJson⟩
  | assignFile path file => exact h.document file s hs
  | wholeFile file => exact h.document file s hs
  | assignFactory path id => exact h.factory id s hs
  | wholeFactory id => exact h.factory id s hs

/-! ## The longest path -/

/-- How many keys the path of an argument has, none if it assigns at no path. -/
def pathLength (text : String) : Nat :=
  match Argument.parse text with
  | .ok argument => (argument.path?.getD []).length
  | .error _ => 0

/-- How many keys the longest path has that arguments assign at. -/
def longestPath (args : List String) : Nat := (args.map pathLength).foldr max 0

@[simp] theorem longestPath_nil : longestPath [] = 0 := rfl

@[simp] theorem longestPath_cons (text : String) (args : List String) :
    longestPath (text :: args) = max (pathLength text) (longestPath args) := rfl

theorem longestPath_append (args args' : List String) :
    longestPath (args ++ args') = max (longestPath args) (longestPath args') := by
  induction args with
  | nil => simp
  | cons text args ih =>
    rw [List.cons_append, longestPath_cons, ih, longestPath_cons, Nat.max_assoc]

theorem pathLength_of_path {text : String} {argument : Argument} {path : KeyPath}
    (hparse : Argument.parse text = .ok argument) (hpath : argument.path? = some path) :
    pathLength text = path.length := by
  rw [pathLength, hparse]
  dsimp only
  rw [hpath, Option.getD_some]

/-! ## Accumulators -/

/-- What compiling can hold after assignments at paths of at most so many keys. -/
structure Accumulator (n : Nat) (t : Tree) : Prop where
  object : ∃ fs, t = .object fs
  plain : t.Plain
  depth_le : t.depth ≤ maxDepth + n

variable {n m : Nat} {acc : Tree}

theorem accumulator_empty : Accumulator 0 .empty :=
  ⟨⟨[], rfl⟩, Tree.plain_empty, by simp [Tree.empty, Tree.depth, Tree.depthFields, maxDepth]⟩

theorem Accumulator.mono (h : Accumulator n acc) (hnm : n ≤ m) : Accumulator m acc :=
  ⟨h.object, h.plain, Nat.le_trans h.depth_le (Nat.add_le_add_left hnm maxDepth)⟩

theorem Accumulator.assign (h : Accumulator n acc) {path : KeyPath} (hpath : path ≠ []) {v : Tree}
    (hv : v.Plain) (hd : v.depth ≤ maxDepth) :
    Accumulator (max n path.length) (Tree.assign path v acc) where
  object := by
    obtain ⟨k, path, rfl⟩ := List.exists_cons_of_ne_nil hpath
    exact ⟨_, Tree.assign_cons k path v acc⟩
  plain := Tree.hereditary_plain.assign hv h.plain path
  depth_le := by
    have hacc := h.depth_le
    exact Tree.depth_assign_le (by omega) (by omega)

theorem Accumulator.merge (h : Accumulator n acc) {gs : Fields Tree} (hg : (Tree.object gs).Plain)
    (hd : (Tree.object gs).depth ≤ maxDepth) : Accumulator n (acc.merge (.object gs)) where
  object := by
    obtain ⟨fs, rfl⟩ := h.object
    exact ⟨_, Tree.merge_object fs gs⟩
  plain := h.plain.mergeAt hg 0
  depth_le := Tree.depth_mergeAt_le h.depth_le (Nat.le_trans hd (Nat.le_add_right _ n)) 0

theorem exists_object_of_placeWhole {mode : WholeTreeMode} {flag : Flag} {whole next : Tree}
    (h : placeWhole mode flag acc whole = .ok next) :
    whole.depth ≤ maxDepth ∧ ∃ gs, whole.unwrap = .object gs ∧
      (next = .object gs ∨ next = acc.merge (.object gs)) := by
  obtain ⟨t, ht, h⟩ := Outcome.bind_eq_ok.1 h
  obtain ⟨hd, rfl⟩ := withinDepth_eq_ok_iff.1 ht
  refine ⟨hd, ?_⟩
  generalize whole.unwrap = w at h ⊢
  cases w with
  | object gs =>
    cases mode with
    | firstOnly =>
      cases h
      exact ⟨gs, rfl, .inl rfl⟩
    | mergeAnywhere =>
      cases h
      exact ⟨gs, rfl, .inr rfl⟩
  | _ => cases h

/-- **Placing a plain value gives an accumulator again.** -/
theorem Accumulator.place (h : Accumulator n acc) {mode : WholeTreeMode} {text : String}
    {argument : Argument} (hparse : Argument.parse text = .ok argument) {value next : Tree}
    (hv : value.Plain) (hplace : argument.place mode acc value = .ok next) :
    Accumulator (max n (pathLength text)) next := by
  unfold Argument.place at hplace
  split at hplace
  · rename_i path hpath
    obtain ⟨v, hwithin, rfl⟩ := Outcome.map_eq_ok.1 hplace
    obtain ⟨hd, rfl⟩ := withinDepth_eq_ok_iff.1 hwithin
    rw [pathLength_of_path hparse hpath]
    exact h.assign (Argument.written_of_parse hparse path hpath).1 hv hd
  · obtain ⟨hd, gs, hw, hnext⟩ := exists_object_of_placeWhole hplace
    have hg : (Tree.object gs).Plain := hw ▸ Tree.hereditary_plain.unwrap hv
    have hgd : (Tree.object gs).depth ≤ maxDepth := by rwa [← hw, Tree.depth_unwrap]
    rcases hnext with rfl | rfl
    · exact ⟨⟨gs, rfl⟩, hg, Nat.le_trans hgd (Nat.le_add_right _ _)⟩
    · exact (h.merge hg hgd).mono (Nat.le_max_left n _)

/-! ## Along a run -/

namespace Compilation

variable {sources : Sources σ} {mode : WholeTreeMode} {check : Tree → Action σ Unit}
  {inv : σ → Prop} {index : Nat} {next : Tree} {text : String} {s s' : σ} {events : List Event}

theorem Applies.accumulator (h : Applies sources mode index acc text s next s' events)
    (hsources : sources.GivePlain inv) (hs : inv s) (hacc : Accumulator n acc) :
    inv s' ∧ Accumulator (max n (pathLength text)) next := by
  cases h with
  | mk hparse _ hfetch hplace =>
    obtain ⟨hs', hplain⟩ := hsources.fetch hs hfetch
    exact ⟨hs', hacc.place hparse (hplain _ rfl) hplace⟩

theorem Passes.accumulator (h : Passes sources mode check index acc text s next s' events)
    (hsources : sources.GivePlain inv) (hcheck : ∀ t s, inv s → inv (check t s).2) (hs : inv s)
    (hacc : Accumulator n acc) : inv s' ∧ Accumulator (max n (pathLength text)) next := by
  cases h with
  | mk happlies hc =>
    obtain ⟨hs₁, hnext⟩ := happlies.accumulator hsources hs hacc
    have hs' := hcheck next _ hs₁
    rw [hc] at hs'
    exact ⟨hs', hnext⟩

/-- **Every accumulator of a run**, and with it the last one. -/
theorem Folds.accumulator {args : List String} {trees : List Tree}
    (h : Folds sources mode check index acc s args trees s' events)
    (hsources : sources.GivePlain inv) (hcheck : ∀ t s, inv s → inv (check t s).2) (hs : inv s)
    (hacc : Accumulator n acc) :
    inv s' ∧ Accumulator (max n (longestPath args)) (trees.getLastD acc) ∧
      ∀ k t, trees[k]? = some t → Accumulator (max n (longestPath (args.take (k + 1)))) t := by
  induction h generalizing n with
  | nil => exact ⟨hs, hacc.mono (Nat.le_max_left n _), by simp⟩
  | cons hpasses _ ih =>
    obtain ⟨hs₁, hnext⟩ := hpasses.accumulator hsources hcheck hs hacc
    obtain ⟨hs', hlast, htrees⟩ := ih hs₁ hnext
    rw [Nat.max_assoc] at hlast
    refine ⟨hs', by rwa [List.getLastD_cons], fun k t hk => ?_⟩
    cases k with
    | zero =>
      cases hk
      simpa using hnext
    | succ k =>
      have ht := htrees k t hk
      rwa [Nat.max_assoc] at ht

theorem Fails.accumulator {e : Error}
    (h : Fails sources mode check index acc text s e s' events (some next))
    (hsources : sources.GivePlain inv) (hs : inv s) (hacc : Accumulator n acc) :
    Accumulator (max n (pathLength text)) next := by
  cases h with
  | refused happlies => exact (happlies.accumulator hsources hs hacc).2

/-- **Every accumulator of a run that stops**, with the one that was refused as the last. -/
theorem Folds.accumulator_of_fails {before after : List String} {trees : List Tree} {e : Error}
    {s'' : σ} {done : List Event} {refused : Option Tree}
    (hfolds : Folds sources mode check 0 .empty s before trees s' events)
    (hfails : Fails sources mode check before.length (trees.getLastD .empty) text s' e s'' done
      refused)
    (hsources : sources.GivePlain inv) (hcheck : ∀ t s, inv s → inv (check t s).2) (hs : inv s)
    {k : Nat} {t : Tree} (hk : (trees ++ refused.toList)[k]? = some t) :
    Accumulator (longestPath ((before ++ text :: after).take (k + 1))) t := by
  obtain ⟨hs', hlast, htrees⟩ := hfolds.accumulator hsources hcheck hs accumulator_empty
  simp only [Nat.zero_max] at hlast htrees
  rcases Nat.lt_or_ge k trees.length with hlt | hge
  · rw [List.getElem?_append_left hlt] at hk
    rw [hfolds.length_eq] at hlt
    rw [List.take_append_of_le_length hlt]
    exact htrees k t hk
  · -- Past the folded arguments there is only the tree that was refused.
    rw [List.getElem?_append_right hge] at hk
    cases refused with
    | none => simp at hk
    | some next =>
      obtain ⟨hzero, rfl⟩ : k - trees.length = 0 ∧ next = t := by
        simpa [List.getElem?_singleton] using hk
      have hlength : k = before.length := by
        rw [← hfolds.length_eq]
        omega
      have htake : (before ++ text :: after).take (k + 1) = before ++ [text] := by
        rw [hlength, List.take_length_add_append]
        rfl
      rw [htake, longestPath_append, longestPath_cons, longestPath_nil, Nat.max_zero]
      exact hfails.accumulator hsources hs' hlast

end Compilation

open Compilation

/-- **What the accumulator can be.** With sources of plain trees, every tree that the check is given
after an argument, and the tree of a run that succeeds, is an object, holds no atoms, and nests at
most `maxDepth` levels more than the longest path assigned up to that argument has keys. -/
theorem compileWithCheck_accumulator {sources : Sources σ} (check : Tree → Action σ Unit)
    {inv : σ → Prop} (hsources : sources.GivePlain inv)
    (hcheck : ∀ t s, inv s → inv (check t s).2) {s : σ} (hs : inv s) (mode : WholeTreeMode)
    (args : List String) :
    let run := compileWithCheck sources mode check args s
    let recorded := compileWithCheck sources.recording mode (recordingCheck check) args (s, [])
    (∀ k t, (checkedTrees recorded.2.2)[k]? = some t →
      Accumulator (longestPath (args.take (k + 1))) t) ∧
    ∀ t, run.1 = .ok t → Accumulator (longestPath args) t := by
  intro run recorded
  obtain ⟨events, hrecorded⟩ := exists_recorded sources mode check args s
  cases hrun : compileWithCheck sources mode check args s with
  | mk outcome s' =>
    rw [hrun] at hrecorded
    simp only [run, recorded, hrecorded, hrun]
    cases outcome with
    | ok t =>
      obtain ⟨trees, hfolds, rfl⟩ := recorded_eq_ok_iff.1 hrecorded
      obtain ⟨-, hlast, htrees⟩ := hfolds.accumulator hsources hcheck hs accumulator_empty
      simp only [Nat.zero_max] at hlast htrees
      rw [hfolds.checkedTrees_eq]
      refine ⟨htrees, ?_⟩
      rintro t ⟨⟩
      exact hlast
    | error e =>
      obtain ⟨before, text, after, trees, s₁, events₁, cause, events₂, refused, rfl, hfolds, hfails,
        -, rfl⟩ := recorded_eq_error_iff.1 hrecorded
      rw [checkedTrees_append, hfolds.checkedTrees_eq, hfails.checkedTrees_eq]
      refine ⟨fun k t hk => ?_, by simp⟩
      exact hfolds.accumulator_of_fails hfails hsources hcheck hs hk

/-- The bound is reached, by a tree that the check refuses: a value at the limit stands below a path
of two keys. The factory makes another value the next time. -/
theorem compileWithCheck_accumulator_refused :
    let nested := fun n => Nat.repeat (fun t => Tree.array [t]) n .null
    let world : World :=
      ⟨⟨[("deep", .new fun n => .ok (nested (maxDepth - n)))]⟩, fun _ => .error .missing⟩
    let check : Tree → Action World Unit := fun t =>
      .ofExcept (if (t.get? "a").isSome then .error .notAssignment else .ok ())
    let args := ["tags=[]", "--set-from-fn=a.b=deep", "c=d"]
    let t := Tree.object [("tags", .array []), ("a", .object [("b", nested maxDepth)])]
    (∀ f ∈ world.registry.factories, ∀ n t, f.2.make n = .ok t → t.Plain) ∧
      (checkedTrees (compileWithCheck World.sources.recording .firstOnly (recordingCheck check) args
        (world, [])).2.2)[1]? = some t ∧
      longestPath (args.take 2) = 2 ∧ t.depth = maxDepth + 2 ∧
      Accumulator (longestPath (args.take 2)) t := by
  intro nested world check args t
  have hnested : ∀ n, (nested n).Plain := by
    intro n
    induction n with
    | zero => exact Tree.plain_null
    | succ n ih => exact Tree.plain_array.2 (by simpa using ih)
  have hmake : ∀ f ∈ world.registry.factories, ∀ n t, f.2.make n = .ok t → t.Plain := by
    intro f hf n t ht
    rw [List.mem_singleton.1 hf] at ht
    cases ht
    exact hnested _
  have hacc := (compileWithCheck_accumulator check World.sources_givePlain (fun _ _ hs => hs) hmake
    .firstOnly args).1 1 t
  refine ⟨hmake, ?hchecked, by decide +kernel, by decide +kernel, hacc ?hchecked⟩
  decide +kernel

end ConfigOverlay
