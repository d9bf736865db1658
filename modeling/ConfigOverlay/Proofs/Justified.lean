import ConfigOverlay.Proofs.Diff
import ConfigOverlay.Proofs.Position

/-!
# What a diff patches and what it keeps together

Follow a diff to a position, as long as source, target and overlay hold containers of one kind.
All of them were patched on the way, so what the overlay holds at the position is a diff again: the
one between what source and target hold there, as deep as the position is long
(`subtree?_diffAt`). Where the source holds nothing, the overlay copies the target.

**Theorem (`diffWith_aligned`).** At every such position a container of the overlay that stands for
containers of its kind is a patch that nothing forbade, and an atom is one wrapper around the tree
of the target, put there for a reason (`Indivisible`). An object whose tag changed is never
patched.
-/

namespace ConfigOverlay.Tree

variable {p : Policy} {d : Nat} {q : Position} {s t : Tree}

/-! ## Patched pairs -/

/-- The second container has every key of the first, or is not shorter. -/
inductive Keeps : Tree → Tree → Prop
  | object {fs gs : Fields Tree} (h : ∀ k ∈ fs.keys, k ∈ gs.keys) : Keeps (object fs) (object gs)
  | array {xs ys : List Tree} (h : xs.length ≤ ys.length) : Keeps (array xs) (array ys)

/-- Why a pair of trees at a depth is kept together: merging does not look that deep, the policy
says so of the pair, something would have to be removed, or the policy says so of the source and
the overlay that would patch it. -/
inductive Indivisible (p : Policy) (d : Nat) : Tree → Tree → Prop
  | deep {s t : Tree} (h : maxDepth ≤ d) : Indivisible p d s t
  | pair {s t : Tree} (h : p s t = true) : Indivisible p d s t
  | removed {fs gs : Fields Tree} {k : String} (hk : k ∈ fs.keys) (hn : k ∉ gs.keys) :
    Indivisible p d (object fs) (object gs)
  | shorter {xs ys : List Tree} (h : ys.length < xs.length) : Indivisible p d (array xs) (array ys)
  | objectPatch {fs gs : Fields Tree}
    (h : p (object fs) (object (overlayFields p (d + 1) fs gs)) = true) :
    Indivisible p d (object fs) (object gs)
  | arrayPatch {xs ys : List Tree} (h : p (array xs) (array (diffItems p (d + 1) xs ys)) = true) :
    Indivisible p d (array xs) (array ys)

theorem Patches.allowed (h : Patches p d s t) :
    d < maxDepth ∧ p s t = false ∧ p s (diffAt p d s t) = false ∧ Keeps s t := by
  cases h with
  | object hd hp hkeys ho =>
    exact ⟨hd, hp, by rwa [diffAt_object (.object hd hp hkeys ho)], .object hkeys⟩
  | array hd hp hlen ho =>
    exact ⟨hd, hp, by rwa [diffAt_array (.array hd hp hlen ho)], .array hlen⟩

theorem Patches.isAtom_diffAt (h : Patches p d s t) : (diffAt p d s t).isAtom = false := by
  cases h with
  | object hd hp hkeys ho =>
    rw [diffAt_object (.object hd hp hkeys ho)]
    rfl
  | array hd hp hlen ho =>
    rw [diffAt_array (.array hd hp hlen ho)]
    rfl

theorem patches_of_sameContainer (hst : SameContainer s t)
    (hso : SameContainer s (diffAt p d s t)) : Patches p d s t := by
  by_contra hn
  cases hst with
  | object fs gs =>
    rw [diffAt_object_of_not_patches hn] at hso
    cases hso
  | array xs ys =>
    rw [diffAt_array_of_not_patches hn] at hso
    cases hso

/-- **Only for a reason are containers of one kind not patched.** -/
theorem indivisible_of_not_patches (hst : SameContainer s t) (hn : ¬ Patches p d s t) :
    Indivisible p d s t := by
  by_contra hi
  have hd : d < maxDepth := Nat.lt_of_not_le fun h => hi (.deep h)
  have hp : p s t = false := Bool.eq_false_iff.2 fun h => hi (.pair h)
  cases hst with
  | object fs gs =>
    refine hn (.object hd hp (fun k hk => ?_) (Bool.eq_false_iff.2 fun h => hi (.objectPatch h)))
    by_contra hk'
    exact hi (.removed hk hk')
  | array xs ys =>
    refine hn (.array hd hp (Nat.le_of_not_lt fun h => hi (.shorter h)) ?_)
    exact Bool.eq_false_iff.2 fun h => hi (.arrayPatch h)

/-- A target of another kind is copied, unless the source is a container and the pair stands too
deep or the policy keeps it together. -/
theorem diffAt_of_not_sameContainer (hst : ¬ SameContainer s t)
    (hl : s.IsContainer → d < maxDepth ∧ p s t = false) : diffAt p d s t = t := by
  rw [diffAt.eq_def]
  split_ifs
  · rfl
  cases s with
  | object fs =>
    obtain ⟨hd, hp⟩ := hl (.object fs)
    dsimp only
    rw [if_neg (by simp [hd, hp])]
    cases t with
    | object gs => exact absurd (.object fs gs) hst
    | _ => rfl
  | array xs =>
    obtain ⟨hd, hp⟩ := hl (.array xs)
    dsimp only
    rw [if_neg (by simp [hd, hp])]
    cases t with
    | array ys => exact absurd (.array xs ys) hst
    | _ => rfl
  | _ => rfl

/-- **Only for a reason is a target kept together**: an overlay that is an atom wraps the target
once, and the source is a container. -/
theorem indivisible_of_isAtom_diffAt (ht : t.isAtom = false) (h : (diffAt p d s t).isAtom = true) :
    diffAt p d s t = atom t ∧ s.IsContainer ∧ Indivisible p d s t := by
  have hn : ¬ Patches p d s t := fun hp => by simp [hp.isAtom_diffAt] at h
  have hcopied : diffAt p d s t ≠ t := fun he => by simp [he, ht] at h
  have hwrapped : diffAt p d s t = atom t := by
    rcases diffAt_of_not_patches hn with he | ⟨he, -⟩
    · rw [he, asAtom_of_isAtom ht]
    · exact absurd he hcopied
  by_cases hst : SameContainer s t
  · exact ⟨hwrapped, hst.isContainer, indivisible_of_not_patches hst hn⟩
  · have hleaf : ¬ (s.IsContainer → d < maxDepth ∧ p s t = false) :=
      fun hl => hcopied (diffAt_of_not_sameContainer hst hl)
    obtain ⟨hc, hl⟩ := Classical.not_imp.1 hleaf
    refine ⟨hwrapped, hc, ?_⟩
    by_cases hd : maxDepth ≤ d
    · exact .deep hd
    · exact .pair (by simpa [Nat.lt_of_not_le hd] using hl)

/-! ## Parts of a diff -/

theorem getElem?_diffItems {xs ys : List Tree} {i : Nat} {z : Tree}
    (h : (diffItems p d xs ys)[i]? = some z) :
    ∃ y, ys[i]? = some y ∧ (xs[i]? = none ∧ z = y ∨ ∃ x, xs[i]? = some x ∧ z = diffAt p d x y) := by
  induction xs generalizing ys i with
  | nil => exact ⟨z, by rwa [diffItems] at h, .inl ⟨rfl, rfl⟩⟩
  | cons x xs ih =>
    cases ys with
    | nil => simp [diffItems] at h
    | cons y ys =>
      rw [diffItems] at h
      split_ifs at h
      · simp at h
      cases i with
      | zero => exact ⟨y, rfl, .inr ⟨x, rfl, (Option.some.inj h).symm⟩⟩
      | succ i => exact ih h

/-- What a patch holds behind one step: a diff one level deeper, or what is new in the target. -/
theorem Patches.part?_diffAt (h : Patches p d s t) (hs : s.WellFormed) (ht : t.WellFormed)
    {e : Step} {z : Tree} (hz : (diffAt p d s t).part? e = some z) :
    ∃ y, t.part? e = some y ∧ (s.part? e = none ∧ z = y ∨
      ∃ x, s.part? e = some x ∧ z = diffAt p (d + 1) x y) := by
  cases h with
  | @object fs gs hd hp hkeys ho =>
    rw [diffAt_object (.object hd hp hkeys ho)] at hz
    cases e with
    | item i => cases hz
    | key k =>
      obtain ⟨y, hy, hx | ⟨x, hx, -, he⟩⟩ := exists_of_mem_overlayFields (wellFormed_object.1 hs).1
        (wellFormed_object.1 ht).1 (Fields.mem_of_get? hz)
      · exact ⟨y, hy, .inl hx⟩
      · exact ⟨y, hy, .inr ⟨x, hx, he⟩⟩
  | array hd hp hlen ho =>
    rw [diffAt_array (.array hd hp hlen ho)] at hz
    cases e with
    | key k => cases hz
    | item i => exact getElem?_diffItems hz

/-- **A diff holds diffs**, at every position up to which the trees are aligned: between what
source and target hold there, at the depth of the position, or what is new in the target. -/
theorem subtree?_diffAt (hs : s.WellFormed) (ht : t.WellFormed)
    (hq : Aligned q s t (diffAt p d s t)) {c : Tree} (hc : (diffAt p d s t).subtree? q = some c) :
    ∃ b, t.subtree? q = some b ∧ (s.subtree? q = none ∧ c = b ∨
      ∃ a, s.subtree? q = some a ∧ c = diffAt p (d + q.length) a b) := by
  induction q generalizing s t d with
  | nil => exact ⟨t, rfl, .inr ⟨s, rfl, (Option.some.inj hc).symm⟩⟩
  | cons e q ih =>
    have hp : Patches p d s t := patches_of_sameContainer hq.root.1 hq.root.2
    obtain ⟨z, hz, hzc⟩ := Option.bind_eq_some_iff.1 hc
    obtain ⟨y, hy, ⟨hx, rfl⟩ | ⟨x, hx, rfl⟩⟩ := hp.part?_diffAt hs ht hz
    · refine ⟨c, ?_, .inl ⟨?_, rfl⟩⟩
      · rw [subtree?_cons, hy, Option.bind_some, hzc]
      · rw [subtree?_cons, hx, Option.bind_none]
    · have hrest := ih (hereditary_wellFormed.part? hs hx) (hereditary_wellFormed.part? ht hy)
        (hq.tail hx hy hz) hzc
      rw [subtree?_cons, subtree?_cons, hx, hy, List.length_cons, Nat.add_comm q.length,
        ← Nat.add_assoc]
      exact hrest

/-- **Diffs, position by position.** Where source, target and overlay hold containers of one kind
on the way to a position:

* if they hold containers of one kind there as well, then nothing forbade to patch the pair: it
  stands above the depth limit, the policy keeps neither the pair nor the source and its overlay
  together, and nothing has to be removed;
* if the overlay holds an atom there, it is one wrapper around exactly what the target holds, over
  a container of the source, and for a reason;
* an object whose tag changed is such an atom when the policy is the usual one. -/
theorem diffWith_aligned {source target : Tree} (hs : source.Plain) (ht : target.Plain)
    (hq : Aligned q source target (diffWith p source target)) {c : Tree}
    (hc : (diffWith p source target).subtree? q = some c) :
    (∀ a b, source.subtree? q = some a → target.subtree? q = some b → SameContainer a b →
      SameContainer a c → q.length < maxDepth ∧ p a b = false ∧ p a c = false ∧ Keeps a b) ∧
    (c.isAtom = true → ∃ a b, source.subtree? q = some a ∧ target.subtree? q = some b ∧
      c = atom b ∧ b.isAtom = false ∧ a.IsContainer ∧ Indivisible p q.length a b) ∧
    (p = .typeTagChanged → ∀ fs gs tag tag', source.subtree? q = some (object fs) →
      target.subtree? q = some (object gs) → Fields.get? Policy.tagKey fs = some tag →
      Fields.get? Policy.tagKey gs = some tag' → tag.same tag' = false → c = atom (object gs)) := by
  -- The overlay holds a diff there, at the depth of the position, or a value new in the target.
  obtain ⟨b, hb, hcb⟩ := subtree?_diffAt hs.wellFormed ht.wellFormed hq hc
  rw [Nat.zero_add] at hcb
  have hba : b.isAtom = false := isAtom_of_atomFree (hereditary_plain.subtree? ht hb).atomFree
  refine ⟨fun a b' ha hb' hab hac => ?_, fun hatom => ?_, ?_⟩
  · obtain ⟨hn, -⟩ | ⟨a', ha', rfl⟩ := hcb
    · simp [ha] at hn
    · cases ha.symm.trans ha'
      cases hb.symm.trans hb'
      exact (patches_of_sameContainer hab hac).allowed
  · obtain ⟨-, rfl⟩ | ⟨a, ha, rfl⟩ := hcb
    · simp [hba] at hatom
    · obtain ⟨hwrapped, hcontainer, hreason⟩ := indivisible_of_isAtom_diffAt hba hatom
      exact ⟨a, b, ha, hb, hwrapped, hba, hcontainer, hreason⟩
  · rintro rfl fs gs tag tag' hfs hgs htag htag' hne
    cases hb.symm.trans hgs
    obtain ⟨hn, -⟩ | ⟨a, ha, rfl⟩ := hcb
    · simp [hfs] at hn
    · cases hfs.symm.trans ha
      have hleaf : Policy.typeTagChanged (object fs) (object gs) = true := by
        simp [Policy.typeTagChanged, get?, htag, htag', hne]
      have hn : ¬ Patches .typeTagChanged q.length (object fs) (object gs) :=
        fun hp => by simp [hp.allowed.2.1] at hleaf
      rw [diffAt_object_of_not_patches hn, asAtom_of_isAtom hba]

/-- The second server of a list gets another kind of credentials, and the first one stays. -/
theorem diffWith_aligned_credentials :
    let basic := object [("_type_", text "basic"), ("user", text "root")]
    let token := object [("user", text "root"), ("_type_", text "token")]
    let source := object [("servers", array [null, object [("auth", basic)]]), ("debug", null)]
    let target := object [("debug", null),
      ("servers", array [null, object [("tls", bool true), ("auth", token)], null])]
    let overlay := diffWith .typeTagChanged source target
    let q : Position := [.key "servers", .item 1, .key "auth"]
    source.Plain ∧ target.Plain ∧ Aligned q source target overlay ∧
      overlay.subtree? q = some (atom token) ∧ Indivisible .typeTagChanged 3 basic token := by
  intro basic token source target overlay q
  have hs : source.Plain := ⟨by simp [source, basic, Fields.Distinct, Fields.keys], by decide⟩
  have ht : target.Plain := ⟨by simp [target, token, Fields.Distinct, Fields.keys], by decide⟩
  have ho : overlay = object
      [("servers", array [null, object [("tls", bool true), ("auth", atom token)], null])] := by
    decide
  have hq : Aligned q source target overlay := by
    rw [ho]
    refine .cons (.object _ _) (.object _ _) rfl rfl rfl ?_
    refine .cons (.array _ _) (.array _ _) rfl rfl rfl ?_
    exact .cons (.object _ _) (.object _ _) rfl rfl rfl aligned_nil
  have hc : overlay.subtree? q = some (atom token) := by rw [ho]; rfl
  obtain ⟨a, b, ha, hb, -, -, -, hi⟩ := (diffWith_aligned hs ht hq hc).2.1 rfl
  cases ha
  cases hb
  exact ⟨hs, ht, hq, hc, hi⟩

end ConfigOverlay.Tree
