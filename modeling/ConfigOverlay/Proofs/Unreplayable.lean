import ConfigOverlay.Proofs.KeyOrder
import ConfigOverlay.Proofs.Replay

/-!
# Which edits cannot be replayed

Assignments write below the root. An edit of an object cannot be written that way when its result is
no object, lacks a key, has another tag or has a key that cannot be written: such an edit replaces
the root (`ReplacesRoot`). Every other change can, however deep it is and whatever it replaces
there.

**Theorem (`updatesToArguments_replacesRoot`).** The diff of an object and a different tree is
rendered, to at least one argument, unless the edit replaces the root. So the updates of a value
whose factory makes an object are rendered unless one of them changes something and replaces the
root.

The replay holds the tree that merging reached, and not the snapshot before the step. The two are
equal, and whether an edit replaces the root does not depend on the order of keys
(`ReplacesRoot.of_same`), so a run goes through the snapshots in step (`steps_replacesRoot`).
-/

namespace ConfigOverlay.Replay

open Outcome ConfigOverlay.Tree

/-! ## Edits that replace the root -/

/-- Why an edit of an object cannot be written below its root. -/
inductive ReplacesRoot (s t : Tree) : Prop
  | notObject (h : ∀ fs, t ≠ object fs)
  | dropsKey {k : String} {x : Tree} (hs : s.get? k = some x) (ht : t.get? k = none)
  | retagged {a b : Tree} (hs : s.get? Policy.tagKey = some a) (ht : t.get? Policy.tagKey = some b)
    (hab : a.same b = false)
  | unaddressable {k : String} {x : Tree} (ht : t.get? k = some x) (hk : isAddressable k = false)

theorem ReplacesRoot.of_same {s s' t : Tree} (h : ReplacesRoot s t) (hs : s.WellFormed)
    (hs' : s'.WellFormed) (ht : t.WellFormed) (hsame : s.same s' = true) : ReplacesRoot s' t := by
  have hget : ∀ {k x}, s.get? k = some x → ∃ x', s'.get? k = some x' ∧ x.same x' = true := by
    intro k x hx
    have hrel := get?_same hs hs' hsame k
    rw [hx] at hrel
    cases hx' : s'.get? k with
    | none => simp [hx'] at hrel
    | some x' => exact ⟨x', rfl, by simpa [hx'] using hrel⟩
  cases h with
  | notObject h => exact .notObject h
  | dropsKey hx hy =>
    obtain ⟨x', hx', -⟩ := hget hx
    exact .dropsKey hx' hy
  | retagged ha hb hab =>
    obtain ⟨a', ha', haa⟩ := hget ha
    refine .retagged ha' hb ?_
    rw [← hab]
    exact (same_congr (hs.get? ha) (hs'.get? ha') (ht.get? hb) (ht.get? hb) haa
      (same_refl (ht.get? hb))).symm
  | unaddressable hy hk => exact .unaddressable hy hk

theorem replacesRoot_iff_of_same {s s' t : Tree} (hs : s.WellFormed) (hs' : s'.WellFormed)
    (ht : t.WellFormed) (hsame : s.same s' = true) : ReplacesRoot s t ↔ ReplacesRoot s' t :=
  ⟨fun h => h.of_same hs hs' ht hsame, fun h => h.of_same hs' hs ht (same_symm hs hs' hsame)⟩

/-! ## Diffs at the root -/

/-- The policy looks into a pair of objects when the tag stays, as far as both have one, and all
keys of the second one can be written. -/
theorem policy_object_eq_false_iff {s : Tree} {gs : Fields Tree} :
    policy s (object gs) = false ↔
      (∀ a b, s.get? Policy.tagKey = some a → (object gs).get? Policy.tagKey = some b →
        a.same b = true) ∧ ∀ k ∈ gs.keys, isAddressable k = true := by
  have htag : Policy.typeTagChanged s (object gs) = false ↔ ∀ a b, s.get? Policy.tagKey = some a →
      (object gs).get? Policy.tagKey = some b → a.same b = true := by
    rw [Policy.typeTagChanged]
    cases s.get? Policy.tagKey <;> cases (object gs).get? Policy.tagKey <;> simp
  simp [policy, Policy.either, Policy.sequenceIfDifferent, Policy.unaddressableKeys, htag]

/-- **An object is patched unless the edit replaces the root.** -/
theorem patches_iff_not_replacesRoot {fs gs : Fields Tree} (hf : fs.Distinct) (hg : gs.Distinct) :
    Patches policy 0 (object fs) (object gs) ↔ ¬ ReplacesRoot (object fs) (object gs) := by
  rw [patches_object_iff, policy_object_eq_false_iff, policy_object_eq_false_iff]
  constructor
  · rintro ⟨-, ⟨htag, hwrite⟩, hkeys, -⟩ h
    cases h with
    | notObject h => exact h gs rfl
    | dropsKey hx hy => exact Fields.get?_eq_none.1 hy (hkeys _ (Fields.mem_keys_of_get? hx))
    | retagged ha hb hab => simp [htag _ _ ha hb] at hab
    | unaddressable hy hk => simp [hwrite _ (Fields.mem_keys_of_get? hy)] at hk
  · intro h
    have htag : ∀ a b, (object fs).get? Policy.tagKey = some a →
        (object gs).get? Policy.tagKey = some b → a.same b = true := by
      intro a b ha hb
      by_contra hab
      exact h (.retagged ha hb (by simpa using hab))
    have hwrite : ∀ k ∈ gs.keys, isAddressable k = true := by
      intro k hk
      obtain ⟨y, hy⟩ := Fields.exists_get?_iff.2 hk
      by_contra hn
      exact h (.unaddressable hy (by simpa using hn))
    have hkeys : ∀ k ∈ fs.keys, k ∈ gs.keys := by
      intro k hk
      obtain ⟨x, hx⟩ := Fields.exists_get?_iff.2 hk
      by_contra hn
      exact h (.dropsKey hx (Fields.get?_eq_none.2 hn))
    -- The patch has keys of the target only, and a tag only where that is new.
    refine ⟨by decide, ⟨htag, hwrite⟩, hkeys, fun a b ha hb => ?_, fun k hk => ?_⟩
    · have ha' : Fields.get? Policy.tagKey fs = some a := ha
      have hb' : Fields.get? Policy.tagKey (overlayFields policy 1 fs gs) = some b := hb
      rw [get?_overlayFields hf, ha'] at hb'
      obtain ⟨y, hy, hb'⟩ := Option.bind_eq_some_iff.1 hb'
      simp [htag a y ha hy] at hb'
    · obtain ⟨f, hfm, rfl⟩ := List.mem_map.1 hk
      obtain ⟨y, hy, -⟩ := exists_of_mem_overlayFields hf hg hfm
      exact hwrite f.1 (Fields.mem_keys_of_get? hy)

section

variable {fs : Fields Tree} {next : Tree} (hs : (object fs).Plain) (hnext : next.Plain)

include hs hnext

theorem toArguments_of_replacesRoot (h : ReplacesRoot (object fs) next) :
    (diffWith policy (object fs) next).toArguments = .error .unrepresentableRoot := by
  obtain ⟨os, -, -, hargs⟩ | herror := toArguments_cases (diffWith policy (object fs) next)
  · obtain ⟨gs, rfl, hp⟩ := patches_of_toArguments hnext.atomFree hargs
    have hpatch := patches_iff_not_replacesRoot (plain_object.1 hs).1 (plain_object.1 hnext).1
    exact absurd h (hpatch.1 hp)
  · exact herror

/-- **Every other change is rendered**, to one argument at least. -/
theorem exists_toArguments_of_not_replacesRoot (hne : next.same (object fs) = false)
    (h : ¬ ReplacesRoot (object fs) next) :
    ∃ args, (diffWith policy (object fs) next).toArguments = .ok args ∧ args ≠ [] := by
  obtain ⟨gs, rfl⟩ : ∃ gs, next = object gs := by
    by_contra hobj
    exact h (.notObject (by simpa using hobj))
  obtain ⟨hf, -⟩ := plain_object.1 hs
  obtain ⟨hg, -⟩ := plain_object.1 hnext
  have hp := (patches_iff_not_replacesRoot hf hg).2 h
  have hkeys := isAddressable_of_patches hp
  rw [same_comm hnext.wellFormed hs.wellFormed] at hne
  have hleaves := fieldBranches_ne_nil (overlayFields_ne_nil (d := 1) hf hg hp.mem_keys hne)
  rw [diffWith, diffAt_object hp, toArguments_object hkeys, decode_object hkeys]
  exact ⟨_, rfl, by simpa using hleaves⟩

end

/-! ## Runs -/

/-- What the value is unbound to after each of the updates. -/
inductive Unbinds {α : Type} (unbind : α → Except Error Tree) : α → List (α → α) → List Tree → Prop
  | nil {v : α} : Unbinds unbind v [] []
  | cons {v : α} {update : α → α} {updates : List (α → α)} {next : Tree} {trees : List Tree}
    (hnext : unbind (update v) = .ok next) (hrest : Unbinds unbind (update v) updates trees) :
    Unbinds unbind v (update :: updates) (next :: trees)

/-- Somewhere in a list of snapshots, one differs from the one before it and replaces the root. -/
def SomeReplacesRoot (trees : List Tree) : Prop :=
  ∃ s t, [s, t] <:+: trees ∧ t.same s = false ∧ ReplacesRoot s t

theorem not_someReplacesRoot_singleton (s : Tree) : ¬ SomeReplacesRoot [s] := by
  rintro ⟨a, b, hinfix, -⟩
  have := hinfix.length_le
  simp at this

theorem someReplacesRoot_cons {s t : Tree} {trees : List Tree} :
    SomeReplacesRoot (s :: t :: trees) ↔
      (t.same s = false ∧ ReplacesRoot s t) ∨ SomeReplacesRoot (t :: trees) := by
  constructor
  · rintro ⟨a, b, hinfix, h⟩
    rcases List.infix_cons_iff.1 hinfix with hprefix | hinfix
    · obtain ⟨rfl, hrest⟩ := List.cons_prefix_cons.1 hprefix
      obtain ⟨rfl, -⟩ := List.cons_prefix_cons.1 hrest
      exact .inl h
    · exact .inr ⟨a, b, hinfix, h⟩
  · rintro (h | ⟨a, b, hinfix, h⟩)
    · exact ⟨s, t, ⟨[], trees, rfl⟩, h⟩
    · exact ⟨a, b, List.infix_cons hinfix, h⟩

theorem exists_step_of_not_replacesRoot {fs : Fields Tree} {next : Tree} (hs : (object fs).Plain)
    (hnext : next.Plain)
    (h : ¬ (next.same (object fs) = false ∧ ReplacesRoot (object fs) next)) :
    ∃ first gs, Step (object fs) next first (object gs) := by
  cases hsame : next.same (object fs) with
  | true => exact ⟨[], fs, .unchanged hsame⟩
  | false =>
    have hroot : ¬ ReplacesRoot (object fs) next := fun hr => h ⟨hsame, hr⟩
    obtain ⟨args, hargs, -⟩ := exists_toArguments_of_not_replacesRoot hs hnext hsame hroot
    obtain ⟨gs, rfl, -⟩ := patches_of_toArguments hnext.atomFree hargs
    obtain ⟨ms, hms⟩ := exists_object_of_same (merge_diffWith_same hs hnext).2
    exact ⟨args, ms, hms ▸ .changed hsame hargs⟩

variable {α : Type} {unbind : α → Except Error Tree}

/-- **A run is rendered unless some step replaces the root.** It goes through the snapshots with a
tree that equals the last one. -/
theorem steps_replacesRoot {v : α} {updates : List (α → α)} {trees : List Tree}
    (h : Unbinds unbind v updates trees) (htrees : ∀ t ∈ trees, t.Plain) {fs : Fields Tree}
    {s : Tree} (hf : (object fs).Plain) (hs : s.Plain) (hsame : (object fs).same s = true) :
    (SomeReplacesRoot (s :: trees) →
      steps unbind (object fs) v updates = .error .unrepresentableRoot) ∧
    (¬ SomeReplacesRoot (s :: trees) →
      ∃ args final, steps unbind (object fs) v updates = .ok (args, final)) := by
  induction h generalizing fs s with
  | @nil v => exact ⟨fun h => absurd h (not_someReplacesRoot_singleton s), fun _ => ⟨[], v, rfl⟩⟩
  | @cons v update updates next trees hnext hrest ih =>
    rw [List.forall_mem_cons] at htrees
    have hn := htrees.1
    -- The run stands at a tree that equals the snapshot, so the update changes both or neither.
    have heffect : next.same s = next.same (object fs) := same_congr hn.wellFormed hn.wellFormed
      hs.wellFormed hf.wellFormed (same_refl hn.wellFormed)
      (same_symm hf.wellFormed hs.wellFormed hsame)
    rw [someReplacesRoot_cons, heffect,
      ← replacesRoot_iff_of_same hf.wellFormed hs.wellFormed hn.wellFormed hsame]
    by_cases hroot : next.same (object fs) = false ∧ ReplacesRoot (object fs) next
    · have herror : steps unbind (object fs) v (update :: updates) = .error .unrepresentableRoot :=
        steps_cons_of_error hnext hroot.1 (toArguments_of_replacesRoot hf hn hroot.2)
      exact ⟨fun _ => herror, fun hnot => absurd (.inl hroot) hnot⟩
    · obtain ⟨first, gs, hstep⟩ := exists_step_of_not_replacesRoot hf hn hroot
      obtain ⟨hgs, hreach⟩ := hstep.same hf hn
      obtain ⟨herror, hok⟩ := ih htrees.2 hgs hn hreach
      rw [steps_cons_of_step hnext hstep]
      refine ⟨fun hsome => ?_, fun hnot => ?_⟩
      · rw [herror (hsome.resolve_left hroot)]
        rfl
      · obtain ⟨args, final, hrun⟩ := hok fun hsome => hnot (.inr hsome)
        rw [hrun]
        exact ⟨_, _, rfl⟩

/-- **Exactly the edits that replace the root cannot be replayed.** For an object and a different
tree, the diff is refused when the edit replaces the root, as an overlay that does, and otherwise it
has arguments. For a factory that makes an object, and a value and updates that are bound and
unbound, rendering fails when some update changes something and replaces the root, and otherwise
gives arguments. -/
theorem updatesToArguments_replacesRoot {fs : Fields Tree} (hf : (object fs).Plain) :
    (∀ next : Tree, next.Plain → next.same (object fs) = false →
      (ReplacesRoot (object fs) next →
        (diffWith policy (object fs) next).toArguments = .error .unrepresentableRoot) ∧
      (¬ ReplacesRoot (object fs) next →
        ∃ args, (diffWith policy (object fs) next).toArguments = .ok args ∧ args ≠ [])) ∧
    ∀ {σ α : Type} (factory : String → Action σ Tree) (bind : Tree → Except Error α)
      (unbind : α → Except Error Tree) (id : String) (updates : List (α → α)) (trees : List Tree)
      (v : α) (s : σ), (factory id s).1 = .ok (object fs) → bind (object fs) = .ok v →
      Unbinds unbind v updates trees → (∀ t ∈ trees, t.Plain) →
      (SomeReplacesRoot (object fs :: trees) →
        (updatesToArguments factory bind unbind id updates s).1 = .error .unrepresentableRoot) ∧
      (¬ SomeReplacesRoot (object fs :: trees) → ∃ args final,
        (updatesToArguments factory bind unbind id updates s).1 = .ok (args, final)) := by
  refine ⟨fun next hnext hne => ⟨toArguments_of_replacesRoot hf hnext,
    exists_toArguments_of_not_replacesRoot hf hnext hne⟩, ?_⟩
  intro σ α factory bind unbind id updates trees v s hmade hbind hunbinds htrees
  obtain ⟨herror, hok⟩ := steps_replacesRoot hunbinds htrees hf hf (same_refl hf.wellFormed)
  rw [outcome_updatesToArguments hmade, fromTree, hbind, ok_bind]
  refine ⟨fun hsome => ?_, fun hnot => ?_⟩
  · rw [herror hsome]
    rfl
  · obtain ⟨args, final, hrun⟩ := hok hnot
    rw [hrun]
    exact ⟨_, _, rfl⟩

/-- An edit below the root drops a key and adds one that cannot be written, and the next one drops
the key at the root. -/
theorem updatesToArguments_replacesRoot_nested :
    let start := object [("server", object [("port", null)])]
    let nested := object [("server", object [("a.b", array [])])]
    let world : World := ⟨⟨[("service", .constant start)]⟩, fun _ => .error .missing⟩
    let unchanged : Tree → Except Error Tree := .ok
    let updates : List (Tree → Tree) := [fun _ => nested, fun _ => .empty]
    start.Plain ∧ nested.Plain ∧ nested.same start = false ∧ ¬ ReplacesRoot start nested ∧
      (∃ args, (diffWith policy start nested).toArguments = .ok args ∧ args ≠ []) ∧
      (World.sources.factory "service" world).1 = .ok start ∧ unchanged start = .ok start ∧
      Unbinds unchanged start updates [nested, .empty] ∧
      (∀ t ∈ [nested, .empty], t.Plain) ∧ SomeReplacesRoot [start, nested, .empty] ∧
      (updatesToArguments World.sources.factory unchanged unchanged "service" updates world).1 =
        .error .unrepresentableRoot := by
  intro start nested world unchanged updates
  have hstart : start.Plain :=
    Tree.WellFormed.plain_erase (t := start) (by simp [start, Fields.Distinct, Fields.keys])
  have hnested : nested.Plain :=
    Tree.WellFormed.plain_erase (t := nested) (by simp [nested, Fields.Distinct, Fields.keys])
  have hne : nested.same start = false := by decide
  have hkeeps : ¬ ReplacesRoot start nested :=
    (patches_iff_not_replacesRoot (by decide) (by decide)).1 (patches_object_iff.2 (by decide))
  have hunbinds : Unbinds unchanged start updates [nested, .empty] := .cons rfl (.cons rfl .nil)
  have hplain : ∀ t ∈ [nested, .empty], t.Plain := by
    simp [hnested, plain_empty]
  have hdrops : SomeReplacesRoot [start, nested, .empty] :=
    ⟨nested, .empty, ⟨[start], [], rfl⟩, by decide, .dropsKey (k := "server") rfl rfl⟩
  obtain ⟨hdiff, hrun⟩ := updatesToArguments_replacesRoot hstart
  exact ⟨hstart, hnested, hne, hkeeps, (hdiff nested hnested hne).2 hkeeps, rfl, rfl, hunbinds,
    hplain, hdrops, (hrun World.sources.factory unchanged unchanged "service" updates
      [nested, .empty] start world rfl rfl hunbinds hplain).1 hdrops⟩

end ConfigOverlay.Replay
