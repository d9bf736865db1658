import ConfigOverlay.Proofs.Compilation
import ConfigOverlay.Proofs.World

/-!
# Unrelated assignments commute

**Theorem (`compile_swap`).** Two assignments that stand side by side may trade places when neither
path leads to the other: the arguments compile in one order exactly when they compile in the other,
and the trees are equal.

The two paths go together for a while and part at some key. Up to there both orders change what is
under one key, whatever it was. Where they part they write different keys of one object, and only
the order of its keys can tell which was written first (`Tree.assign_comm`). Equality does not see
that order, and every edit that follows respects equality.
-/

namespace ConfigOverlay

/-! ## Incomparable paths -/

namespace KeyPath

/-- Neither path equals the other or leads to it. -/
def Incomparable (p q : KeyPath) : Prop := ¬ p <+: q ∧ ¬ q <+: p

variable {k : String} {p q : KeyPath}

theorem Incomparable.symm (h : Incomparable p q) : Incomparable q p := ⟨h.2, h.1⟩

theorem not_incomparable_nil (q : KeyPath) : ¬ Incomparable [] q := fun h => h.1 q.nil_prefix

theorem Incomparable.tail (h : Incomparable (k :: p) (k :: q)) : Incomparable p q :=
  ⟨fun hpq => h.1 (List.cons_prefix_cons.2 ⟨rfl, hpq⟩),
    fun hqp => h.2 (List.cons_prefix_cons.2 ⟨rfl, hqp⟩)⟩

end KeyPath

/-! ## Two assignments -/

theorem Fields.get?_set_comm {α : Type} {k l : String} (h : k ≠ l) (v w : α) (fs : Fields α)
    (m : String) : get? m (set k v (set l w fs)) = get? m (set l w (set k v fs)) := by
  simp only [get?_set]
  split_ifs with hk hl
  · exact absurd (hk.symm.trans hl) h
  all_goals rfl

namespace Tree

theorem assign_assign_cons (k : String) (p q : KeyPath) (v w base : Tree) :
    assign (k :: p) v (assign (k :: q) w base) =
      object (Fields.set k (assign p v (assign q w (child k base))) base.fieldsOrEmpty) := by
  rw [assign_cons k p, child_assign_self, assign_cons, fieldsOrEmpty_object, Fields.set_set]

theorem assign_assign_of_ne {k l : String} (h : k ≠ l) (p q : KeyPath) (v w base : Tree) :
    assign (k :: p) v (assign (l :: q) w base) =
      object (Fields.set k (assign p v (child k base))
        (Fields.set l (assign q w (child l base)) base.fieldsOrEmpty)) := by
  rw [assign_cons k p, child_assign_of_ne h, assign_cons, fieldsOrEmpty_object]

/-- **Assignments at incomparable paths commute.** -/
theorem assign_comm {p q : KeyPath} (h : p.Incomparable q) {v w base : Tree} (hv : v.WellFormed)
    (hw : w.WellFormed) (hb : base.WellFormed) :
    (assign p v (assign q w base)).same (assign q w (assign p v base)) = true := by
  induction p generalizing q base with
  | nil => exact absurd h (KeyPath.not_incomparable_nil q)
  | cons k p ih =>
    cases q with
    | nil => exact absurd h.symm (KeyPath.not_incomparable_nil (k :: p))
    | cons l q =>
      have hc := hereditary_wellFormed.child hb
      obtain ⟨hd, hf⟩ := hereditary_wellFormed.fieldsOrEmpty hb
      by_cases hkl : k = l
      · subst hkl
        rw [assign_assign_cons, assign_assign_cons, same_object (hd.set k _) (hd.set k _)]
        have hkeep : Fields.Agree (fun x y => x.same y = true) base.fieldsOrEmpty
            base.fieldsOrEmpty :=
          fieldsOrEmpty_same hb hb (same_refl hb)
        exact hkeep.set k (ih h.tail (hc k))
      · have hx := hereditary_wellFormed.assign hv (hc k) p
        have hy := hereditary_wellFormed.assign hw (hc l) q
        rw [assign_assign_of_ne hkl, assign_assign_of_ne (Ne.symm hkl),
          same_object ((hd.set l _).set k _) ((hd.set k _).set l _)]
        intro m
        rw [Fields.get?_set_comm (Ne.symm hkl)]
        refine Fields.Agree.refl (fun n x hn => same_refl ?_) m
        have hall := Fields.forall_mem_set (Fields.forall_mem_set hf l hy) k hx
        exact hall _ (Fields.mem_of_get? hn)

end Tree

/-! ## Swapped arguments -/

namespace Answers

variable {answers : Answers} {mode : WholeTreeMode} {all all' : List String}

theorem readEdits_swap {before after : List String} {first second : String} {a b : Argument}
    {p q : KeyPath} (hfirst : Argument.parse first = .ok a)
    (hsecond : Argument.parse second = .ok b) (hp : a.path? = some p) (hq : b.path? = some q)
    {es : List Edit}
    (h : answers.readEdits mode all 0 (before ++ first :: second :: after) = .ok es) :
    ∃ pre v w post, es = pre ++ .assign p v :: .assign q w :: post ∧
      answers.readEdits mode all' 0 (before ++ second :: first :: after) =
        .ok (pre ++ .assign q w :: .assign p v :: post) := by
  obtain ⟨pre, es', hpre, hes', rfl⟩ := readEdits_append_eq_ok.1 h
  obtain ⟨e, rest, he, hrest, rfl⟩ := readEdits_cons_eq_ok.1 hes'
  obtain ⟨e', post, he', hpost, rfl⟩ := readEdits_cons_eq_ok.1 hrest
  obtain ⟨v, rfl⟩ := exists_assign_of_readEdit hfirst hp he
  obtain ⟨w, rfl⟩ := exists_assign_of_readEdit hsecond hq he'
  refine ⟨pre, v, w, post, rfl, readEdits_append_eq_ok.2 ⟨pre, _, readEdits_all hpre, ?_, rfl⟩⟩
  have hw := (readEdit_of_path hsecond hq (0 + before.length) _).trans he'
  have hv := (readEdit_of_path hfirst hp (0 + before.length + 1) _).trans he
  exact readEdits_cons_eq_ok.2 ⟨_, _, hw,
    readEdits_cons_eq_ok.2 ⟨_, post, hv, readEdits_all hpost, rfl⟩, rfl⟩

end Answers

variable {σ : Type} {sources : Sources σ} {answers : Answers} {inv : σ → Prop}
  {mode : WholeTreeMode}

/-- Arguments that compile also compile with two assignments at incomparable paths swapped, and to
an equal tree. -/
theorem exists_compile_swap (hsteady : sources.Steady answers inv) (hplain : answers.Plain) {s : σ}
    (hs : inv s) {first second : String} {a b : Argument} (hfirst : Argument.parse first = .ok a)
    (hsecond : Argument.parse second = .ok b) {p q : KeyPath} (hp : a.path? = some p)
    (hq : b.path? = some q) (hpq : p.Incomparable q) {before after : List String} {t : Tree}
    (h : (compile sources mode (before ++ first :: second :: after) s).1 = .ok t) :
    ∃ t', (compile sources mode (before ++ second :: first :: after) s).1 = .ok t' ∧
      t.same t' = true := by
  obtain ⟨es, hes, rfl⟩ := (compile_eq_ok_iff hsteady hs).1 h
  have hall := Answers.plain_of_readEdits hplain hes
  obtain ⟨pre, v, w, post, rfl, hswap⟩ := Answers.readEdits_swap hfirst hsecond hp hq hes
  simp only [List.forall_mem_append, List.forall_mem_cons] at hall
  obtain ⟨hpre, hv, hw, hpost⟩ := hall
  refine ⟨_, (compile_eq_ok_iff hsteady hs).2 ⟨_, hswap, rfl⟩, ?_⟩
  rw [Edit.applyAll_append, Edit.applyAll_append]
  have hacc := Edit.plain_applyAll hpre Tree.plain_empty
  refine Edit.applyAll_same hpost ?_ ?_
    (Tree.assign_comm ⟨hpq.2, hpq.1⟩ hw.wellFormed hv.wellFormed hacc.wellFormed)
  · exact Edit.plain_apply hw (Edit.plain_apply hv hacc)
  · exact Edit.plain_apply hv (Edit.plain_apply hw hacc)

/-- **Unrelated assignments commute.** Two assignments that stand side by side, at paths of which
neither leads to the other, may be swapped: the arguments compile in both orders or in neither, and
what they compile to is equal. -/
theorem compile_swap (hsteady : sources.Steady answers inv) (hplain : answers.Plain) {s : σ}
    (hs : inv s) {first second : String} {a b : Argument} (hfirst : Argument.parse first = .ok a)
    (hsecond : Argument.parse second = .ok b) {p q : KeyPath} (hp : a.path? = some p)
    (hq : b.path? = some q) (hpq : ¬ p <+: q) (hqp : ¬ q <+: p) (before after : List String) :
    ((∃ t, (compile sources mode (before ++ first :: second :: after) s).1 = .ok t) ↔
      ∃ t, (compile sources mode (before ++ second :: first :: after) s).1 = .ok t) ∧
    ∀ t t', (compile sources mode (before ++ first :: second :: after) s).1 = .ok t →
      (compile sources mode (before ++ second :: first :: after) s).1 = .ok t' →
      t.same t' = true := by
  have hswap : ∀ {t}, (compile sources mode (before ++ first :: second :: after) s).1 = .ok t →
      ∃ t', (compile sources mode (before ++ second :: first :: after) s).1 = .ok t' ∧
        t.same t' = true :=
    exists_compile_swap hsteady hplain hs hfirst hsecond hp hq ⟨hpq, hqp⟩
  refine ⟨⟨?_, ?_⟩, ?_⟩
  · rintro ⟨t, ht⟩
    obtain ⟨t', ht', -⟩ := hswap ht
    exact ⟨t', ht'⟩
  · rintro ⟨t, ht⟩
    obtain ⟨t', ht', -⟩ :=
      exists_compile_swap hsteady hplain hs hsecond hfirst hq hp ⟨hqp, hpq⟩ ht
    exact ⟨t', ht'⟩
  · intro t t' ht ht'
    obtain ⟨u, hu, htu⟩ := hswap ht
    cases hu.symm.trans ht'
    exact htu

/-- Both assignments go through a text on their way to an object, and a whole tree is merged into
what they made. Only the order of the keys shows which came first. -/
theorem compile_swap_siblings :
    let defaults := Tree.object [("size", .object [("high", .array [.null])])]
    let world : World := ⟨⟨[("defaults", .constant defaults)]⟩, fun _ => .error .missing⟩
    let run := fun args => (compile World.sources .mergeAnywhere args world).1
    let low := "size.low=none"
    let high := "--set-json=size.high=[true,[]]"
    let t := Tree.object [("size", .object [("low", .text "none"),
      ("high", .array [.null, .array []])])]
    let t' := Tree.object [("size", .object [("high", .array [.null, .array []]),
      ("low", .text "none")])]
    (world.registry.Pure ∧ world.answers.Plain) ∧
      Argument.parse low = .ok (.assign ["size", "low"] "none") ∧
      Argument.parse high = .ok (.assignJson ["size", "high"] "[true,[]]") ∧
      ¬ ["size", "low"] <+: ["size", "high"] ∧ ¬ ["size", "high"] <+: ["size", "low"] ∧
      run (["size=small"] ++ low :: high :: ["--from-fn=defaults"]) = .ok t ∧
      run (["size=small"] ++ high :: low :: ["--from-fn=defaults"]) = .ok t' ∧
      t ≠ t' ∧ t.same t' = true := by
  intro defaults world run low high t t'
  have hworld : world.registry.Pure ∧ world.answers.Plain :=
    World.pure_and_plain_of_constant (by simp [defaults, Fields.Distinct, Fields.keys]) _ _
  have hlow : Argument.parse "size.low=none" = .ok (.assign ["size", "low"] "none") := rfl
  have hhigh : Argument.parse "--set-json=size.high=[true,[]]" =
      .ok (.assignJson ["size", "high"] "[true,[]]") := rfl
  have hpq : ¬ ["size", "low"] <+: ["size", "high"] := by decide
  have hqp : ¬ ["size", "high"] <+: ["size", "low"] := by decide
  have ht : run (["size=small"] ++ low :: high :: ["--from-fn=defaults"]) = .ok t :=
    Outcome.toOption_eq_some.1 (by decide +kernel)
  have ht' : run (["size=small"] ++ high :: low :: ["--from-fn=defaults"]) = .ok t' :=
    Outcome.toOption_eq_some.1 (by decide +kernel)
  exact ⟨hworld, hlow, hhigh, hpq, hqp, ht, ht', by decide,
    (compile_swap (World.sources_steady world) hworld.2 ⟨hworld.1, rfl⟩ hlow hhigh rfl rfl hpq hqp
      ["size=small"] ["--from-fn=defaults"]).2 t t' ht ht'⟩

end ConfigOverlay
