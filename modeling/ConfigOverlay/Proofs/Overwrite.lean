import ConfigOverlay.Proofs.Branch
import ConfigOverlay.Proofs.Compilation
import ConfigOverlay.Proofs.World

/-!
# Overwritten arguments are dead

**Theorem (`compile_eraseIdx`).** An assignment that a later one overwrites, at the same path or
above it, can be left out: the remaining arguments compile to an equal tree.

Between the two assignments the run with the first one and the run without it hold different
trees: an object made on the way to the path on one side, a scalar or an array on the other. What
they have in common is `AgreeOff path`: along the path they have equal fields beside it. The
relation holds as soon as the runs part (`agreeOff_assign`), every edit keeps it
(`AgreeOff.apply`), and the overwriting assignment turns it into equality (`AgreeOff.same_assign`),
which every later edit keeps.
-/

namespace ConfigOverlay

namespace Tree

/-! ## Agreement off a path -/

/-- Equal fields beside the path, at every key along it. -/
def AgreeOff : KeyPath → Tree → Tree → Prop
  | [], _, _ => True
  | k :: path, a, b =>
    (∀ l, l ≠ k → Option.Rel (fun x y : Tree => x.same y = true)
      (Fields.get? l a.fieldsOrEmpty) (Fields.get? l b.fieldsOrEmpty)) ∧
    AgreeOff path (child k a) (child k b)

@[simp] theorem agreeOff_nil (a b : Tree) : AgreeOff [] a b := trivial

theorem agreeOff_of_same {a b : Tree} (ha : a.WellFormed) (hb : b.WellFormed)
    (h : a.same b = true) (path : KeyPath) : AgreeOff path a b := by
  induction path generalizing a b with
  | nil => exact agreeOff_nil a b
  | cons k path ih =>
    refine ⟨fun l _ => fieldsOrEmpty_same ha hb h l, ?_⟩
    exact ih (hereditary_wellFormed.child ha k) (hereditary_wellFormed.child hb k)
      (child_same ha hb h k)

theorem agreeOff_self {a : Tree} (ha : a.WellFormed) (path : KeyPath) : AgreeOff path a a :=
  agreeOff_of_same ha ha (same_refl ha) path

theorem agreeOff_of_fieldsOrEmpty_eq_nil {a b : Tree} (ha : a.fieldsOrEmpty = [])
    (hb : b.fieldsOrEmpty = []) (path : KeyPath) : AgreeOff path a b := by
  cases path with
  | nil => exact agreeOff_nil a b
  | cons k path =>
    refine ⟨fun l _ => ?_, ?_⟩
    · rw [ha, hb]
      exact .none
    · rw [child, child, ha, hb]
      exact agreeOff_self wellFormed_null path

/-- **Where the runs part.** Writing below a path changes nothing off the path. -/
theorem agreeOff_assign {path below : KeyPath} (hp : path <+: below) (v : Tree) {base : Tree}
    (hb : base.WellFormed) : AgreeOff path (assign below v base) base := by
  induction path generalizing below base with
  | nil => exact agreeOff_nil _ base
  | cons k path ih =>
    obtain ⟨rest, rfl⟩ := hp
    rw [List.cons_append]
    refine ⟨fun l hl => ?_, ?_⟩
    · rw [assign_cons, fieldsOrEmpty_object, Fields.get?_set_of_ne hl]
      exact fieldsOrEmpty_same hb hb (same_refl hb) l
    · rw [child_assign_self]
      exact ih (List.prefix_append path rest) (hereditary_wellFormed.child hb k)

/-- **Where the runs meet.** Writing at the path leaves nothing that could differ. -/
theorem AgreeOff.same_assign {path : KeyPath} {a b : Tree} (h : AgreeOff path a b)
    (ha : a.WellFormed) (hb : b.WellFormed) {v : Tree} (hv : v.WellFormed) :
    (assign path v a).same (assign path v b) = true := by
  induction path generalizing a b with
  | nil => exact same_refl hv
  | cons k path ih =>
    obtain ⟨hoff, hon⟩ := h
    have hda := (hereditary_wellFormed.fieldsOrEmpty ha).1
    have hdb := (hereditary_wellFormed.fieldsOrEmpty hb).1
    rw [assign_cons, assign_cons, same_object (hda.set k _) (hdb.set k _)]
    intro l
    rw [Fields.get?_set, Fields.get?_set]
    split_ifs with hl
    · exact .some (ih hon (hereditary_wellFormed.child ha k) (hereditary_wellFormed.child hb k))
    · exact hoff l hl

/-! ## What keeps the agreement -/

theorem AgreeOff.assign {path : KeyPath} {a b : Tree} (h : AgreeOff path a b) (ha : a.WellFormed)
    (hb : b.WellFormed) {v : Tree} (hv : v.WellFormed) (other : KeyPath) :
    AgreeOff path (assign other v a) (assign other v b) := by
  induction path generalizing a b other with
  | nil => exact agreeOff_nil _ _
  | cons k path ih =>
    cases other with
    | nil => exact agreeOff_self hv _
    | cons l other =>
      obtain ⟨hoff, hon⟩ := h
      have hwa := fun m => hereditary_wellFormed.child ha m
      have hwb := fun m => hereditary_wellFormed.child hb m
      refine ⟨fun m hm => ?_, ?_⟩
      · rw [assign_cons, assign_cons, fieldsOrEmpty_object, fieldsOrEmpty_object, Fields.get?_set,
          Fields.get?_set]
        split_ifs with hml
        · have hchild := child_same_of_rel (hoff l (hml ▸ hm))
          exact .some (assign_same (hwa l) (hwb l) (same_refl hv) hchild other)
        · exact hoff m hm
      · by_cases hkl : k = l
        · subst hkl
          rw [child_assign_self, child_assign_self]
          exact ih hon (hwa k) (hwb k) other
        · rw [child_assign_of_ne hkl, child_assign_of_ne hkl]
          exact hon

theorem fieldsOrEmpty_mergeAt_eq_nil {a b : Tree} (hb : b.atomFree = true)
    (hn : ∀ gs, b ≠ object gs) (d : Nat) : (mergeAt .never d a b).fieldsOrEmpty = [] := by
  by_cases hl : LooksInside .never d a b
  · cases hl with
    | object => exact absurd rfl (hn _)
    | array hd hp => rw [mergeAt_array (.array hd hp), fieldsOrEmpty_array]
  · rw [mergeAt_of_not_looksInside hl, unwrap_of_atomFree hb, fieldsOrEmpty_eq_nil hb hn]

/-- A key that the overlay mentions goes on with the merge of the child, which is the value of the
overlay where the child is `null` for want of a value. -/
theorem child_mergedFields {a : Tree} {gs : Fields Tree} {d : Nat} {k : String} {y : Tree}
    (hy : Fields.get? k gs = some y) (hplain : y.atomFree = true) :
    child k (object (mergedFields .never d a.fieldsOrEmpty gs)) =
      mergeAt .never d (child k a) y := by
  rw [child, fieldsOrEmpty_object, get?_mergedFields, hy, child]
  cases Fields.get? k a.fieldsOrEmpty with
  | some x => rfl
  | none =>
    have hnull : mergeAt .never d null y = y := by
      rw [mergeAt_of_not_looksInside (by rintro ⟨⟩), unwrap_of_atomFree hplain]
    simp [hnull]

theorem child_mergedFields_of_none {a : Tree} {gs : Fields Tree} {d : Nat} {k : String}
    (hk : Fields.get? k gs = none) :
    child k (object (mergedFields .never d a.fieldsOrEmpty gs)) = child k a := by
  rw [child, fieldsOrEmpty_object, get?_mergedFields, hk, child]
  cases Fields.get? k a.fieldsOrEmpty <;> rfl

theorem AgreeOff.mergeAt {path : KeyPath} {a b w : Tree} (h : AgreeOff path a b) (ha : a.Plain)
    (hb : b.Plain) (hw : w.Plain) (d : Nat) :
    AgreeOff path (mergeAt .never d a w) (mergeAt .never d b w) := by
  induction path generalizing a b w d with
  | nil => exact agreeOff_nil _ _
  | cons k path ih =>
    by_cases hobj : ∃ gs, w = object gs
    swap
    -- An overlay that is no object replaces both trees.
    · have hn : ∀ gs, w ≠ object gs := fun gs hgs => hobj ⟨gs, hgs⟩
      exact agreeOff_of_fieldsOrEmpty_eq_nil (fieldsOrEmpty_mergeAt_eq_nil hw.atomFree hn d)
        (fieldsOrEmpty_mergeAt_eq_nil hw.atomFree hn d) _
    obtain ⟨gs, rfl⟩ := hobj
    by_cases hd : d < maxDepth
    swap
    -- So does one at the depth limit.
    · have hl : ∀ c, ¬ LooksInside .never d c (object gs) := by
        rintro c ⟨⟩
        omega
      rw [mergeAt_of_not_looksInside (hl a), mergeAt_of_not_looksInside (hl b)]
      exact agreeOff_self hw.wellFormed _
    obtain ⟨hoff, hon⟩ := h
    rw [mergeAt_never_object ha.atomFree hd, mergeAt_never_object hb.atomFree hd]
    refine ⟨fun l hl => ?_, ?_⟩
    -- Off the path equal values meet equal overlays.
    · have hgs := fieldsOrEmpty_same hw.wellFormed hw.wellFormed (same_refl hw.wellFormed) l
      refine rel_get?_mergedFields (hoff l hl) hgs fun x x' y y' hx hx' hy hy' hxx hyy => ?_
      have hof : ∀ {t x : Tree}, t.Plain → Fields.get? l t.fieldsOrEmpty = some x →
          x.WellFormed := fun ht hx =>
        (hereditary_wellFormed.fieldsOrEmpty ht.wellFormed).2 _ (Fields.mem_of_get? hx)
      exact mergeAt_same Policy.never_respectful (hof ha hx) (hof hb hx') (hof hw hy) (hof hw hy')
        hxx hyy (d + 1)
    · cases hy : Fields.get? k gs with
      | none =>
        rw [child_mergedFields_of_none hy, child_mergedFields_of_none hy]
        exact hon
      | some y =>
        have hyp : y.Plain := hereditary_plain.of_get? hw hy
        rw [child_mergedFields hy hyp.atomFree, child_mergedFields hy hyp.atomFree]
        exact ih hon (hereditary_plain.child ha k) (hereditary_plain.child hb k) hyp (d + 1)

end Tree

/-- **Every edit keeps the agreement.** -/
theorem Tree.AgreeOff.apply {path : KeyPath} {a b : Tree} (h : AgreeOff path a b) (ha : a.Plain)
    (hb : b.Plain) {e : Edit} (he : e.tree.Plain) : AgreeOff path (e.apply a) (e.apply b) := by
  cases e with
  | assign other v => exact h.assign ha.wellFormed hb.wellFormed he.wellFormed other
  | replace whole => exact agreeOff_self he.wellFormed path
  | merge whole => exact h.mergeAt ha hb he 0

theorem Tree.AgreeOff.applyAll {path : KeyPath} {a b : Tree} (h : AgreeOff path a b) (ha : a.Plain)
    (hb : b.Plain) {es : List Edit} (hes : ∀ e ∈ es, e.tree.Plain) :
    AgreeOff path (Edit.applyAll es a) (Edit.applyAll es b) := by
  induction es generalizing a b with
  | nil => exact h
  | cons e es ih =>
    rw [List.forall_mem_cons] at hes
    exact ih (h.apply ha hb hes.1) (Edit.plain_apply hes.1 ha) (Edit.plain_apply hes.1 hb) hes.2

/-! ## Dead edits -/

/-- An assignment, any edits, and an assignment over the first: the first one is dead. -/
theorem Edit.applyAll_overwritten {above below : KeyPath} (hp : above <+: below) {v w acc : Tree}
    (hv : v.Plain) (hw : w.Plain) (ha : acc.Plain) {mid post : List Edit}
    (hmid : ∀ e ∈ mid, e.tree.Plain) (hpost : ∀ e ∈ post, e.tree.Plain) :
    (applyAll (.assign below v :: (mid ++ .assign above w :: post)) acc).same
      (applyAll (mid ++ .assign above w :: post) acc) = true := by
  have hwith : (Tree.assign below v acc).Plain := Tree.hereditary_plain.assign hv ha below
  have hpart := Tree.agreeOff_assign hp v ha.wellFormed
  have hmeet := (hpart.applyAll hwith ha hmid).same_assign
    (plain_applyAll hmid hwith).wellFormed (plain_applyAll hmid ha).wellFormed hw.wellFormed
  rw [applyAll_cons, applyAll_append, applyAll_append, applyAll_cons, applyAll_cons]
  refine applyAll_same hpost ?_ ?_ hmeet
  · exact Tree.hereditary_plain.assign hw (plain_applyAll hmid hwith) above
  · exact Tree.hereditary_plain.assign hw (plain_applyAll hmid ha) above

theorem exists_append_of_getElem? {α : Type} {xs : List α} {i : Nat} {x : α}
    (h : xs[i]? = some x) : ∃ pre post, xs = pre ++ x :: post ∧ pre.length = i := by
  obtain ⟨hi, rfl⟩ := List.getElem?_eq_some_iff.1 h
  refine ⟨xs.take i, xs.drop (i + 1), ?_, List.length_take_of_le (Nat.le_of_lt hi)⟩
  rw [List.getElem_cons_drop, List.take_append_drop]

variable {σ : Type} {sources : Sources σ} {answers : Answers} {inv : σ → Prop}
  {mode : WholeTreeMode}

/-- **Overwritten arguments are dead.** Without an assignment whose path a later one equals or
leads to, the arguments still compile, and to an equal tree. -/
theorem compile_eraseIdx (hsteady : sources.Steady answers inv) (hplain : answers.Plain) {s : σ}
    (hs : inv s) {args : List String} {t : Tree} (hc : (compile sources mode args s).1 = .ok t)
    {i j : Nat} (hij : i < j) {first second : String} (hi : args[i]? = some first)
    (hj : args[j]? = some second) {assignment overwriting : Argument}
    (hfirst : Argument.parse first = .ok assignment)
    (hsecond : Argument.parse second = .ok overwriting) {below above : KeyPath}
    (hbelow : assignment.path? = some below) (habove : overwriting.path? = some above)
    (hp : above <+: below) :
    ∃ t', (compile sources mode (args.eraseIdx i) s).1 = .ok t' ∧ t.same t' = true := by
  obtain ⟨es, hes, rfl⟩ := (compile_eq_ok_iff hsteady hs).1 hc
  have hall := Answers.plain_of_readEdits hplain hes
  -- The two arguments are the edits at their places.
  obtain ⟨e, he, hread⟩ := Answers.getElem?_of_readEdits hes hi
  obtain ⟨v, rfl⟩ := Answers.exists_assign_of_readEdit hfirst hbelow hread
  obtain ⟨e', he', hread'⟩ := Answers.getElem?_of_readEdits hes hj
  obtain ⟨w, rfl⟩ := Answers.exists_assign_of_readEdit hsecond habove hread'
  -- Without the first one the other edits stay.
  refine ⟨_, (compile_eq_ok_iff hsteady hs).2
    ⟨es.eraseIdx i, Answers.readEdits_eraseIdx hes i, rfl⟩, ?_⟩
  obtain ⟨pre, rest, rfl, rfl⟩ := exists_append_of_getElem? he
  have hrest : rest[j - pre.length - 1]? = some (.assign above w) := by
    rw [List.getElem?_append_right (Nat.le_of_lt hij)] at he'
    obtain ⟨k, hk⟩ : ∃ k, j - pre.length = k + 1 := ⟨j - pre.length - 1, by omega⟩
    rw [hk, List.getElem?_cons_succ] at he'
    rw [hk, Nat.add_sub_cancel]
    exact he'
  obtain ⟨mid, post, rfl, -⟩ := exists_append_of_getElem? hrest
  rw [List.eraseIdx_append_of_length_le (Nat.le_refl _), Nat.sub_self, List.eraseIdx_cons_zero,
    Edit.applyAll_append, Edit.applyAll_append]
  simp only [List.forall_mem_append, List.forall_mem_cons] at hall
  obtain ⟨hpre, hv, hmid, hw, hpost⟩ := hall
  exact Edit.applyAll_overwritten hp hv hw (Edit.plain_applyAll hpre Tree.plain_empty) hmid hpost

/-- Between the two assignments a whole tree is merged, into an object in one run and into nothing
in the other. -/
theorem compile_eraseIdx_merged :
    let defaults := Tree.object [("db", .array [.null]), ("log", .object [])]
    let world : World := ⟨⟨[("defaults", .constant defaults)]⟩, fun _ => .error .missing⟩
    let args := ["log=true", "db.pool.size=small", "--from-fn=defaults", "--set-json=db=[]"]
    let t := Tree.object [("log", .object []), ("db", .array [])]
    (compile World.sources .mergeAnywhere args world).1 = .ok t ∧
      args[1]? = some "db.pool.size=small" ∧ args[3]? = some "--set-json=db=[]" ∧
      Argument.parse "db.pool.size=small" = .ok (.assign ["db", "pool", "size"] "small") ∧
      Argument.parse "--set-json=db=[]" = .ok (.assignJson ["db"] "[]") ∧
      ["db"] <+: ["db", "pool", "size"] ∧
      ∃ t', (compile World.sources .mergeAnywhere (args.eraseIdx 1) world).1 = .ok t' ∧
        t.same t' = true := by
  intro defaults world args t
  have hpure : world.registry.Pure := by simp [world, Registry.Pure, Factory.constant, Factory.new]
  have hplain : world.answers.Plain := by
    apply World.answers_plain
    intro f hf n u hu
    rw [List.mem_singleton.1 hf] at hu
    cases hu
    exact Tree.WellFormed.plain_erase (by simp [defaults, Fields.Distinct, Fields.keys])
  have hc : (compile World.sources .mergeAnywhere args world).1 = .ok t :=
    Outcome.toOption_eq_some.1 (by decide +kernel)
  have hfirst : Argument.parse "db.pool.size=small" =
      .ok (.assign ["db", "pool", "size"] "small") := rfl
  have hsecond : Argument.parse "--set-json=db=[]" = .ok (.assignJson ["db"] "[]") := rfl
  have hp : ["db"] <+: ["db", "pool", "size"] := by decide
  exact ⟨hc, rfl, rfl, hfirst, hsecond, hp,
    compile_eraseIdx (World.sources_steady world) hplain ⟨hpure, rfl⟩ hc (i := 1) (j := 3)
      (by decide) rfl rfl hfirst hsecond rfl rfl hp⟩

end ConfigOverlay
