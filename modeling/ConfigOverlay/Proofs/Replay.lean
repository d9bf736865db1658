import ConfigOverlay.Proofs.Patch
import ConfigOverlay.Proofs.Render
import ConfigOverlay.Proofs.RoundTrip

/-!
# Replaying edits reproduces them

**Theorem (`compile_updatesToArguments`).** The arguments that rendered updates compile, after the
argument of the factory, to a tree that equals what the updated value is unbound to, and after the
arguments of each update the accumulator equals the snapshot of that update.

The replay runs beside the compilation that will read its arguments. The replay holds the tree that
merging reached, the compilation an accumulator that assignments reached, and `Tracks` says that
the two are equal. A step (`Step`) adds no arguments when nothing changes. Otherwise it diffs and
renders, and both sides reach the next snapshot, one by merging the diff and the other by writing
its leaves along their paths (`Step.leaves`). What is written in a run are parts of the snapshots
(`steps_leaves`), and it is read back as far as texts nest (`steps_tracks`).
-/

namespace ConfigOverlay

open Outcome

namespace Replay

variable {σ α : Type} {unbind : α → Except Error Tree}

/-! ## Steps -/

/-- What an update that leads to the snapshot `next` adds to the arguments, and the tree after
it. -/
inductive Step (tree next : Tree) : List String → Tree → Prop
  | unchanged (h : next.same tree = true) : Step tree next [] tree
  | changed {args : List String} (h : next.same tree = false)
    (hargs : (tree.diffWith policy next).toArguments = .ok args) :
    Step tree next args (tree.merge (tree.diffWith policy next))

theorem exists_step_or_error (tree next : Tree) :
    (∃ first tree', Step tree next first tree') ∨
      next.same tree = false ∧ ∃ e, (tree.diffWith policy next).toArguments = .error e := by
  cases hsame : next.same tree with
  | true => exact .inl ⟨[], tree, .unchanged hsame⟩
  | false =>
    cases hargs : (tree.diffWith policy next).toArguments with
    | ok args => exact .inl ⟨args, _, .changed hsame hargs⟩
    | error e => exact .inr ⟨rfl, e, rfl⟩

section

variable {tree next tree' : Tree} {v final : α} {update : α → α} {updates : List (α → α)}
  {first args : List String}

theorem steps_cons_of_step (hnext : unbind (update v) = .ok next)
    (hstep : Step tree next first tree') :
    steps unbind tree v (update :: updates) =
      (fun r => (first ++ r.1, r.2)) <$> steps unbind tree' (update v) updates := by
  rw [steps, hnext, ok_bind]
  cases hstep with
  | unchanged h =>
    rw [if_pos h]
    cases steps unbind tree (update v) updates <;> rfl
  | changed h hargs =>
    rw [if_neg (by simp [h])]
    dsimp only
    rw [hargs, ok_bind]
    cases steps unbind (tree.merge (tree.diffWith policy next)) (update v) updates <;> rfl

theorem steps_cons_of_error {e : Error} (hnext : unbind (update v) = .ok next)
    (h : next.same tree = false) (herror : (tree.diffWith policy next).toArguments = .error e) :
    steps unbind tree v (update :: updates) = .error e := by
  rw [steps, hnext, ok_bind, if_neg (by simp [h])]
  dsimp only
  rw [herror, error_bind]

theorem steps_cons_eq_ok :
    steps unbind tree v (update :: updates) = .ok (args, final) ↔
      ∃ next first tree' rest, unbind (update v) = .ok next ∧ Step tree next first tree' ∧
        steps unbind tree' (update v) updates = .ok (rest, final) ∧ args = first ++ rest := by
  constructor
  · intro h
    cases hnext : unbind (update v) with
    | error e =>
      rw [steps, hnext] at h
      cases h
    | ok next =>
      obtain ⟨first, tree', hstep⟩ | ⟨hne, e, herror⟩ := exists_step_or_error tree next
      · rw [steps_cons_of_step hnext hstep, map_eq_ok] at h
        obtain ⟨⟨rest, final'⟩, hrest, he⟩ := h
        cases he
        exact ⟨next, first, tree', rest, rfl, hstep, hrest, rfl⟩
      · rw [steps_cons_of_error hnext hne herror] at h
        cases h
  · rintro ⟨next, first, tree', rest, hnext, hstep, hrest, rfl⟩
    rw [steps_cons_of_step hnext hstep, hrest]
    rfl

end

/-- The value after updates one after the other. -/
def updated (v : α) (updates : List (α → α)) : α := updates.foldl (fun v update => update v) v

/-! ## What the arguments write -/

/-- No value that the argument can be a rendering of nests deeper than a text may. -/
def Shallow (arg : String) : Prop :=
  ∀ path value, KeyPath.assignArgument path value = .ok arg → value.depth ≤ Json.maxNesting

/-- A short argument can only be a rendering of shallow values. -/
theorem shallow_of_length_le {arg : String} (h : arg.toList.length ≤ Json.maxNesting) :
    Shallow arg := by
  intro path value hargument
  obtain ⟨-, -, rfl⟩ := KeyPath.assignArgument_eq_ok_iff.1 hargument
  have hsuffix : (Json.write [] value).length ≤
      (Argument.assign path value.toJson).display.toList.length := by
    show _ ≤ (Argument.guarded path value.toJson).toList.length
    rw [Argument.guarded]
    split_ifs <;> simp [Argument.assignment, Tree.toJson] <;> omega
  have hdepth := Json.depth_le_length_write value
  omega

/-- Compiling the arguments turns one accumulator into another, wherever they stand. -/
def Writes (sources : Sources σ) (args : List String) (acc acc' : Tree) : Prop :=
  ∀ (all rest : List String) (index : Nat) (s : σ),
    compileFrom sources .firstOnly (fun _ => pure ()) all index acc (args ++ rest) s =
      compileFrom sources .firstOnly (fun _ => pure ()) all (index + args.length) acc' rest s

theorem writes_rendered (sources : Sources σ) {es : List (KeyPath × Tree)}
    (hes : ∀ e ∈ es, Assignable e) (hshallow : ∀ arg ∈ es.map rendered, Shallow arg) (acc : Tree) :
    Writes sources (es.map rendered) acc (Tree.assignAll es acc) := by
  have hd : ∀ e ∈ es, e.2.depth ≤ Json.maxNesting := by
    intro e he
    have hargument : KeyPath.assignArgument e.1 e.2 = .ok (rendered e) :=
      KeyPath.assignArgument_eq_ok_iff.2 ⟨(hes e he).path_ne_nil, (hes e he).addressable, rfl⟩
    exact hshallow _ (List.mem_map_of_mem he) e.1 e.2 hargument
  intro all rest index s
  rw [compileFrom_rendered sources .firstOnly all hes hd rest index acc s, List.length_map]

/-- The accumulator of the compilation beside the tree of the replay. -/
structure Tracks (acc tree : Tree) : Prop where
  plain : acc.Plain
  tree_plain : tree.Plain
  isObject : ∃ fs, tree = .object fs
  same : acc.same tree = true

theorem patches_of_toArguments {fs : Fields Tree} {t : Tree} {args : List String}
    (ht : t.atomFree = true) (h : (Tree.diffWith policy (.object fs) t).toArguments = .ok args) :
    ∃ gs, t = .object gs ∧ Tree.Patches policy 0 (.object fs) (.object gs) := by
  obtain ⟨os, hos, -, -⟩ := Tree.exists_object_of_toArguments h
  rw [Tree.diffWith] at hos
  by_cases hp : Tree.Patches policy 0 (.object fs) t
  · obtain ⟨gs, rfl⟩ := hp.exists_object
    exact ⟨gs, rfl, hp⟩
  · have htarget : t = .object os := by rw [← unwrap_diffAt ht hp, hos]; rfl
    subst htarget
    rw [Tree.diffAt_object_of_not_patches hp] at hos
    cases hos

section

variable {fs gs : Fields Tree} (hs : (Tree.object fs).Plain) (ht : (Tree.object gs).Plain)
  (hp : Tree.Patches policy 0 (.object fs) (.object gs))
  (hne : (Tree.object fs).same (.object gs) = false)

include hs ht hp hne

/-- At the root, the branches of a patch are all of its leaves. -/
theorem branches_patch :
    Tree.branches (Tree.diffAt policy 0 (.object fs) (.object gs)) =
      (Tree.object (Tree.overlayFields policy 1 fs gs)).decode := by
  have hsplits := splits_of_patches (Tree.plain_object.1 hs).1 (Tree.plain_object.1 ht).1 hp hne
  rw [Tree.diffAt_object hp]
  exact if_pos hsplits

theorem forall_mem_decode_patch {P : Tree → Prop}
    (hfield : ∀ {fs}, P (.object fs) → ∀ f ∈ fs, P f.2) (hunwrap : ∀ {t}, P t → P t.unwrap)
    (hP : P (.object gs)) :
    ∀ e ∈ (Tree.object (Tree.overlayFields policy 1 fs gs)).decode,
      (e.1 ≠ [] ∧ e.1.Addressable) ∧ P e.2 := by
  have hleaves := forall_mem_branches_diffAt hfield hunwrap hs.wellFormed ht hP hne 0
  rw [branches_patch hs ht hp hne] at hleaves
  intro e he
  exact ⟨Tree.path_of_mem_decode (isAddressable_of_patches hp) e he, (hleaves e he).2⟩

theorem assignAll_patch_same {acc : Tree} (ha : acc.Plain)
    (hacc : acc.same (.object fs) = true) :
    (Tree.assignAll (Tree.object (Tree.overlayFields policy 1 fs gs)).decode acc).same
      (.object gs) = true := by
  have himprint := same_imprint_diffAt hs ht ha hacc hne 0
  rwa [Tree.imprint, branches_patch hs ht hp hne] at himprint

end

theorem merge_diffWith_same {tree next : Tree} (ht : tree.Plain) (hnext : next.Plain) :
    (tree.merge (tree.diffWith policy next)).Plain ∧
      (tree.merge (tree.diffWith policy next)).same next = true := by
  have hqp : ∀ x y : Tree, x.WellFormed → y.WellFormed → Policy.never x y = true →
      policy x y = true := fun _ _ _ _ h => by cases h
  have hreach := Tree.reaches_mergeAt_diffAt hqp ht.wellFormed hnext.wellFormed 0
  have hsame := hreach.2 hnext.atomFree
  have hdiff := ht.wellFormed.diffAt (p := policy) hnext.wellFormed 0
  exact ⟨hnext.of_same (ht.wellFormed.mergeAt hdiff 0) hsame, hsame⟩

/-- **A step leads to its snapshot.** -/
theorem Step.same {tree next tree' : Tree} {args : List String} (h : Step tree next args tree')
    (ht : tree.Plain) (hnext : next.Plain) : tree'.Plain ∧ tree'.same next = true := by
  cases h with
  | unchanged hsame => exact ⟨ht, Tree.same_symm hnext.wellFormed ht.wellFormed hsame⟩
  | changed hne hargs => exact merge_diffWith_same ht hnext

section

variable {P : Tree → Prop} (hreadable : ∀ {t}, P t → t.Readable)
  (hfield : ∀ {fs}, P (.object fs) → ∀ f ∈ fs, P f.2) (hunwrap : ∀ {t}, P t → P t.unwrap)

include hreadable hfield hunwrap

/-- **A step writes leaves of its snapshot**, which keep the accumulator beside the tree. -/
theorem Step.leaves {acc tree next tree' : Tree} {args : List String}
    (h : Step tree next args tree') (ht : Tracks acc tree) (hnext : P next) :
    ∃ es : List (KeyPath × Tree), args = es.map rendered ∧
      (∀ e ∈ es, (e.1 ≠ [] ∧ e.1.Addressable) ∧ P e.2) ∧
      Tracks (Tree.assignAll es acc) tree' ∧ (Tree.assignAll es acc).same next = true := by
  have hplain : next.Plain := (hreadable hnext).plain
  obtain ⟨htree', hreach⟩ := h.same ht.tree_plain hplain
  have hback := Tree.same_symm htree'.wellFormed hplain.wellFormed hreach
  cases h with
  | unchanged hsame =>
    have hacc := Tree.same_trans ht.plain.wellFormed htree'.wellFormed hplain.wellFormed ht.same
      hreach
    exact ⟨[], rfl, by simp, ht, hacc⟩
  | changed hne hargs =>
    obtain ⟨fs, rfl⟩ := ht.isObject
    obtain ⟨gs, rfl, hp⟩ := patches_of_toArguments hplain.atomFree hargs
    have hne' : (Tree.object fs).same (.object gs) = false := by
      rwa [Tree.same_comm ht.tree_plain.wellFormed hplain.wellFormed]
    have hoverlay : Tree.diffWith policy (.object fs) (.object gs) =
        .object (Tree.overlayFields policy 1 fs gs) := Tree.diffAt_object hp
    rw [hoverlay, Tree.toArguments_object (isAddressable_of_patches hp)] at hargs
    have hes := forall_mem_decode_patch ht.tree_plain hplain hp hne' hfield hunwrap hnext
    have hacc := Tree.hereditary_plain.assignAll ht.plain fun e he =>
      (hreadable (hes e he).2).plain
    have hsame := assignAll_patch_same ht.tree_plain hplain hp hne' ht.plain ht.same
    refine ⟨_, (Except.ok.inj hargs).symm, hes, ⟨hacc, htree', ?_, ?_⟩, hsame⟩
    · exact Tree.exists_object_of_same hreach
    · exact Tree.same_trans hacc.wellFormed hplain.wellFormed htree'.wellFormed hsame hback

/-! ## Runs -/

/-- **The steps of the first updates write leaves of their snapshots first**, and lead to the
snapshot of the last of them. -/
theorem steps_leaves {updates : List (α → α)} {acc tree : Tree} {v final : α} {args : List String}
    (ht : Tracks acc tree) (hsteps : steps unbind tree v updates = .ok (args, final))
    (hsnap : ∀ k, 0 < k → k ≤ updates.length → ∀ w,
      unbind (updated v (updates.take k)) = .ok w → P w) {k : Nat} (hk : k ≤ updates.length) :
    ∃ (es : List (KeyPath × Tree)) (rest : List String), args = es.map rendered ++ rest ∧
      steps unbind tree v (updates.take k) = .ok (es.map rendered, updated v (updates.take k)) ∧
      (∀ e ∈ es, (e.1 ≠ [] ∧ e.1.Addressable) ∧ P e.2) ∧ (k = 0 → es = []) ∧
      (0 < k → ∃ w, unbind (updated v (updates.take k)) = .ok w ∧
        (Tree.assignAll es acc).same w = true) := by
  induction updates generalizing acc tree v args k with
  | nil =>
    obtain rfl : k = 0 := by simpa using hk
    exact ⟨[], args, rfl, rfl, by simp, fun _ => rfl, by omega⟩
  | cons update updates ih =>
    cases k with
    -- Of no updates nothing is written yet.
    | zero => exact ⟨[], args, rfl, rfl, by simp, fun _ => rfl, by omega⟩
    | succ k =>
      obtain ⟨next, first, tree', rest, hnext, hstep, hrest, rfl⟩ := steps_cons_eq_ok.1 hsteps
      obtain ⟨es, rfl, hes, ht', hsame⟩ := hstep.leaves hreadable hfield hunwrap ht
        (hsnap 1 (by omega) (by simp) next hnext)
      obtain ⟨more, last, rfl, hmore, hmes, hzero, hpos⟩ := ih ht' hrest
        (fun j hj hjl => hsnap (j + 1) (by omega) (by simpa using hjl)) (k := k) (by simpa using hk)
      refine ⟨es ++ more, last, by simp, ?_, List.forall_mem_append.2 ⟨hes, hmes⟩, by omega,
        fun _ => ?_⟩
      · rw [List.map_append]
        exact steps_cons_eq_ok.2 ⟨next, _, tree', _, hnext, hstep, hmore, rfl⟩
      · by_cases hk0 : k = 0
        · subst hk0
          exact ⟨next, hnext, by rwa [hzero rfl, List.append_nil]⟩
        · rw [Tree.assignAll_append]
          exact hpos (by omega)

end

/-- **The steps of the first updates are written first**, and lead to the snapshot of the last of
them. -/
theorem steps_tracks (sources : Sources σ) (hunbind : ∀ v t, unbind v = .ok t → t.Plain)
    {updates : List (α → α)} {acc tree : Tree} {v final : α} {args : List String}
    (ht : Tracks acc tree) (hsteps : steps unbind tree v updates = .ok (args, final))
    (hint : ∀ k, 0 < k → k ≤ updates.length → ∀ w,
      unbind (updated v (updates.take k)) = .ok w → w.integral = true)
    (hshallow : ∀ arg ∈ args, Shallow arg) {k : Nat} (hk : k ≤ updates.length) :
    ∃ first acc', first <+: args ∧
      steps unbind tree v (updates.take k) = .ok (first, updated v (updates.take k)) ∧
      Writes sources first acc acc' ∧ (k = 0 → acc' = acc) ∧
      (0 < k → ∃ w, unbind (updated v (updates.take k)) = .ok w ∧ acc'.same w = true) := by
  obtain ⟨es, rest, rfl, hrun, hes, hzero, hsame⟩ := steps_leaves (P := Tree.Readable) id
    Tree.Readable.field Tree.Readable.unwrap ht hsteps
    (fun k hpos hkl w hw => ⟨hunbind _ w hw, hint k hpos hkl w hw⟩) hk
  have hassignable : ∀ e ∈ es, Assignable e :=
    fun e he => ⟨(hes e he).1.1, (hes e he).1.2, (hes e he).2⟩
  have hwrites := writes_rendered sources hassignable
    (fun arg ha => hshallow arg (List.mem_append_left rest ha)) acc
  exact ⟨_, _, List.prefix_append _ rest, hrun, hwrites, fun hk0 => by rw [hzero hk0]; rfl, hsame⟩

/-! ## Replays -/

/-- The tree that the value is unbound to after the first updates. -/
def Snapshot (bind : Tree → Except Error α) (unbind : α → Except Error Tree) (start : Tree)
    (updates : List (α → α)) (k : Nat) (w : Tree) : Prop :=
  ∃ v, bind start = .ok v ∧ unbind (updated v (updates.take k)) = .ok w

variable {sources : Sources σ} {answers : Answers} {inv : σ → Prop} {id : String}

theorem outcome_updatesToArguments {factory : String → Action σ Tree} {start : Tree} {s : σ}
    (hmade : (factory id s).1 = .ok start) (bind : Tree → Except Error α)
    (unbind : α → Except Error Tree) (updates : List (α → α)) :
    (updatesToArguments factory bind unbind id updates s).1 =
      fromTree bind unbind id start updates := by
  rw [updatesToArguments, Action.outcome_bind_ofExcept, hmade, ok_bind]

theorem readEdit_wholeFactory (answers : Answers) (id : String) :
    answers.readEdit .firstOnly 0 (Argument.wholeFactory id).display =
      (do wholeEdit .firstOnly .fromFn (← answers.factory id)) := by
  have hparse : Argument.parse (Argument.wholeFactory id).display = .ok (.wholeFactory id) :=
    Argument.parse_display (by nofun)
  rw [Answers.readEdit, hparse]
  rfl

theorem compileFrom_wholeFactory (hsteady : sources.Steady answers inv) {fs : Fields Tree}
    (hmade : answers.factory id = .ok (.object fs))
    (hwhole : wholeEdit .firstOnly .fromFn (.object fs) = .ok (.replace (.object fs))) {s : σ}
    (hs : inv s) (all rest : List String) :
    ∃ s', inv s' ∧ compileFrom sources .firstOnly (fun _ => pure ()) all 0 .empty
        ((Argument.wholeFactory id).display :: rest) s =
      compileFrom sources .firstOnly (fun _ => pure ()) all 1 (.object fs) rest s' := by
  obtain ⟨s', hs', hstep⟩ := compileStep_eq hsteady .firstOnly 0 .empty
    (Argument.wholeFactory id).display hs
  rw [readEdit_wholeFactory, hmade, ok_bind, hwhole] at hstep
  exact ⟨s', hs', compileFrom_cons hstep rest⟩

/-- A factory that compiles alone makes an object, and starts every compilation with it. -/
theorem compile_wholeFactory (hsteady : sources.Steady answers inv)
    (hfactory : ∀ t, answers.factory id = .ok t → t.Plain) {s : σ} (hs : inv s) {start : Tree}
    (halone : (compile sources .firstOnly [(Argument.wholeFactory id).display] s).1 = .ok start) :
    answers.factory id = .ok start ∧ (∃ fs, start = .object fs) ∧
      ∀ {s' : σ}, inv s' → ∀ all rest, ∃ s'', inv s'' ∧
        compileFrom sources .firstOnly (fun _ => pure ()) all 0 .empty
            ((Argument.wholeFactory id).display :: rest) s' =
          compileFrom sources .firstOnly (fun _ => pure ()) all 1 start rest s'' := by
  obtain ⟨es, hes, happly⟩ := (compile_eq_ok_iff hsteady hs).1 halone
  obtain ⟨e, es, he, hnil, rfl⟩ := Answers.readEdits_cons_eq_ok.1 hes
  cases hnil
  rw [readEdit_wholeFactory] at he
  obtain ⟨tree, htree, he⟩ := bind_eq_ok.1 he
  obtain ⟨-, ⟨fs, rfl⟩, hwhole⟩ | ⟨-, herror⟩ | ⟨-, -, herror⟩ :=
    wholeEdit_cases .firstOnly .fromFn (hfactory tree htree).atomFree
  · rw [hwhole] at he
    cases he
    cases happly
    exact ⟨htree, ⟨fs, rfl⟩, fun hs' => compileFrom_wholeFactory hsteady htree hwhole hs'⟩
  · rw [herror] at he
    cases he
  · rw [herror] at he
    cases he

variable {bind : Tree → Except Error α}

/-- **Replaying edits reproduces them.** When the updates of a value from a factory are rendered,
the arguments compile to a tree that equals what the final value is unbound to, and the arguments
of the first updates, which come first among them, to a tree that equals the snapshot after these
updates. Factories and unbinding make plain trees, the snapshots hold integers only, and no
rendered value nests deeper than a text may. -/
theorem compile_updatesToArguments (hsteady : sources.Steady answers inv)
    (hfactory : ∀ t, answers.factory id = .ok t → t.Plain)
    (hunbind : ∀ v t, unbind v = .ok t → t.Plain) {s s' : σ} (hs : inv s) (hs' : inv s')
    {start : Tree}
    (halone : (compile sources .firstOnly [(Argument.wholeFactory id).display] s).1 = .ok start)
    {updates : List (α → α)} (hne : updates ≠ []) {args : List String} {v : α}
    (h : (updatesToArguments sources.factory bind unbind id updates s).1 = .ok (args, v))
    (hint : ∀ k w, 0 < k → k ≤ updates.length → Snapshot bind unbind start updates k w →
      w.integral = true)
    (hshallow : ∀ arg ∈ args, Shallow arg) :
    (∃ w t, unbind v = .ok w ∧ (compile sources .firstOnly args s').1 = .ok t ∧
      t.same w = true) ∧
    ∀ k, 0 < k → k ≤ updates.length → ∃ first v' w t, first <+: args ∧
      (updatesToArguments sources.factory bind unbind id (updates.take k) s).1 = .ok (first, v') ∧
      Snapshot bind unbind start updates k w ∧ (compile sources .firstOnly first s').1 = .ok t ∧
      t.same w = true := by
  obtain ⟨hmade, hobj, hfirst⟩ := compile_wholeFactory hsteady hfactory hs halone
  -- The replay starts from the tree that the compilation starts from.
  obtain ⟨s₁, -, hcall⟩ := hsteady.factory id s hs
  rw [hmade] at hcall
  have hreplay : ∀ us, (updatesToArguments sources.factory bind unbind id us s).1 =
      fromTree bind unbind id start us := by
    intro us
    exact congrArg Prod.fst (run_bind_ofExcept hcall fun t => fromTree bind unbind id t us)
  rw [hreplay] at h
  obtain ⟨v₀, hbind, h⟩ := bind_eq_ok.1 h
  obtain ⟨⟨rest, final⟩, hsteps, h⟩ := bind_eq_ok.1 h
  cases h
  have hplain := hfactory start hmade
  have ht : Tracks start start := ⟨hplain, hplain, hobj, Tree.same_refl hplain.wellFormed⟩
  have hprefix : ∀ k, 0 < k → k ≤ updates.length → ∃ first w t, first <+: rest ∧
      steps unbind start v₀ (updates.take k) = .ok (first, updated v₀ (updates.take k)) ∧
      unbind (updated v₀ (updates.take k)) = .ok w ∧
      (compile sources .firstOnly ((Argument.wholeFactory id).display :: first) s').1 = .ok t ∧
      t.same w = true := by
    intro k hpos hk
    obtain ⟨first, t, hpre, hrun, hwrites, -, hsnap⟩ := steps_tracks sources hunbind ht hsteps
      (fun j hj hjl w hw => hint j w hj hjl ⟨v₀, hbind, hw⟩)
      (fun arg ha => hshallow arg (List.mem_cons_of_mem _ ha)) hk
    obtain ⟨w, hw, hsame⟩ := hsnap hpos
    refine ⟨first, w, t, hpre, hrun, hw, ?_, hsame⟩
    obtain ⟨s₂, -, hcompile⟩ := hfirst hs' ((Argument.wholeFactory id).display :: first) first
    have hrest := hwrites ((Argument.wholeFactory id).display :: first) [] 1 s₂
    rw [List.append_nil] at hrest
    rw [compile, compileWithCheck, hcompile, hrest]
    rfl
  constructor
  · have hpos := List.length_pos_iff.2 hne
    obtain ⟨first, w, t, -, hrun, hw, hcompile, hsame⟩ := hprefix _ hpos (Nat.le_refl _)
    rw [List.take_length, hsteps] at hrun
    cases hrun
    rw [List.take_length] at hw
    exact ⟨w, t, hw, hcompile, hsame⟩
  · intro k hpos hk
    obtain ⟨first, w, t, hpre, hrun, hw, hcompile, hsame⟩ := hprefix k hpos hk
    refine ⟨_ :: first, updated v₀ (updates.take k), w, t, List.cons_prefix_cons.2 ⟨rfl, hpre⟩, ?_,
      ⟨v₀, hbind, hw⟩, hcompile, hsame⟩
    rw [hreplay]
    exact bind_eq_ok.2 ⟨v₀, hbind, bind_eq_ok.2 ⟨_, hrun, rfl⟩⟩

/-- A switch is set, nothing changes, and a tag with an equals sign is added. -/
theorem compile_updatesToArguments_tags :
    let unbind : Bool × List String → Except Error Tree := fun v =>
      .ok (.object [("verbose", .bool v.1), ("tags", .array (v.2.map .text))])
    let bind : Tree → Except Error (Bool × List String) := fun t =>
      match t.get? "verbose", t.get? "tags" with
      | some (.bool b), some (.array xs) => .ok (b, xs.filterMap Tree.text?)
      | _, _ => .error .notAssignment
    let start := Tree.object [("verbose", .bool false), ("tags", .array [.text "dev"])]
    let world : World := ⟨⟨[("service", .constant start)]⟩, fun _ => .error .missing⟩
    let updates : List (Bool × List String → Bool × List String) :=
      [fun v => (true, v.2), fun v => v, fun v => (v.1, v.2 ++ ["a=b"])]
    let args := ["--from-fn=service", "verbose=true", "tags=[\"dev\",\"a=b\"]"]
    world.registry.Pure ∧ (∀ t, world.answers.factory "service" = .ok t → t.Plain) ∧
      (∀ v t, unbind v = .ok t → t.Plain) ∧
      (compile World.sources .firstOnly ["--from-fn=service"] world).1 = .ok start ∧
      updates ≠ [] ∧
      (updatesToArguments World.sources.factory bind unbind "service" updates world).1 =
        .ok (args, (true, ["dev", "a=b"])) ∧
      (∀ k w, 0 < k → k ≤ updates.length → Snapshot bind unbind start updates k w →
        w.integral = true) ∧
      (∀ arg ∈ args, Shallow arg) ∧
      ∃ w t, unbind (true, ["dev", "a=b"]) = .ok w ∧
        (compile World.sources .firstOnly args world).1 = .ok t ∧ t.same w = true := by
  intro unbind bind start world updates args
  have hpure : world.registry.Pure := by simp [world, Registry.Pure, Factory.constant, Factory.new]
  have hfactory : ∀ t, world.answers.factory "service" = .ok t → t.Plain := by
    intro t ht
    cases ht
    exact Tree.WellFormed.plain_erase (by simp [start, Fields.Distinct, Fields.keys])
  have hunbind : ∀ v t, unbind v = .ok t → t.Plain := by
    rintro v t ⟨⟩
    refine Tree.plain_object.2 ⟨by simp [Fields.Distinct, Fields.keys], ?_⟩
    simp [Tree.plain_bool, Tree.plain_array, Tree.plain_text]
  have halone : (compile World.sources .firstOnly ["--from-fn=service"] world).1 = .ok start :=
    toOption_eq_some.1 (by decide +kernel)
  have hupdates : (updatesToArguments World.sources.factory bind unbind "service" updates world).1 =
      .ok (args, (true, ["dev", "a=b"])) := toOption_eq_some.1 (by decide +kernel)
  have hint : ∀ k w, 0 < k → k ≤ updates.length → Snapshot bind unbind start updates k w →
      w.integral = true := by
    rintro k w - - ⟨v, -, ⟨⟩⟩
    rw [Tree.integral_object, List.forall_mem_cons, List.forall_mem_singleton]
    exact ⟨rfl, Tree.integral_array.2 (List.forall_mem_map.2 fun _ _ => rfl)⟩
  have hshallow : ∀ arg ∈ args, Shallow arg := by
    intro arg ha
    refine shallow_of_length_le ?_
    revert arg
    decide
  exact ⟨hpure, hfactory, hunbind, halone, by simp [updates], hupdates, hint, hshallow,
    (compile_updatesToArguments (World.sources_steady world) hfactory hunbind ⟨hpure, rfl⟩
      ⟨hpure, rfl⟩ halone (by simp [updates]) hupdates hint hshallow).1⟩

end Replay

end ConfigOverlay
