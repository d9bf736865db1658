import ConfigOverlay.Proofs.FirstFailure
import ConfigOverlay.Proofs.Merge
import ConfigOverlay.World

/-!
# The two ways to place whole trees

**Theorem (`compileWithCheck_modes`).** Without a whole tree past the first place, the two modes are
one: they end alike, in the same tree with the same order of keys or in the same error, after the
same work. With one there, `firstOnly` never gives a tree. It fails at the first such place if it
gets that far, and before it as `mergeAnywhere` does.

Arguments that assign never ask for the mode. A whole tree in the first place may stand there in
both modes, and it finds the empty object, to which merging adds exactly the tree
(`Argument.place_mode`). So the two modes take the same steps up to the first whole tree past the
first place (`compileWithCheck_mode`), and what a list ends in or goes on from does not depend on
what comes after it.
-/

namespace ConfigOverlay

variable {σ : Type}

/-! ## Where whole trees stand -/

/-- Whether a text writes a whole tree. -/
def writesWhole (text : String) : Bool :=
  match Argument.parse text with
  | .ok argument => argument.isWholeTree
  | .error _ => false

theorem writesWhole_of_parse {text : String} {argument : Argument}
    (hparse : Argument.parse text = .ok argument) : writesWhole text = argument.isWholeTree := by
  rw [writesWhole, hparse]

theorem exists_parse_of_writesWhole {text : String} (h : writesWhole text = true) :
    ∃ argument, Argument.parse text = .ok argument ∧ argument.isWholeTree = true := by
  unfold writesWhole at h
  split at h
  · rename_i argument hparse
    exact ⟨argument, hparse, h⟩
  · cases h

/-- No whole tree stands past the first place. -/
def WholeOnlyFirst (args : List String) : Prop := ∀ text ∈ args.tail, writesWhole text = false

theorem exists_first_of_not_wholeOnlyFirst {args : List String} (h : ¬ WholeOnlyFirst args) :
    ∃ before text after, args = before ++ text :: after ∧ before ≠ [] ∧ WholeOnlyFirst before ∧
      writesWhole text = true := by
  cases args with
  | nil => exact absurd (by simp [WholeOnlyFirst]) h
  | cons arg rest =>
    cases hfind : rest.find? writesWhole with
    | none =>
      have hnone : ∀ text ∈ rest, writesWhole text = false := by simpa using hfind
      exact absurd hnone h
    | some text =>
      obtain ⟨hwhole, before, after, rfl, hbefore⟩ := List.find?_eq_some_iff_append.1 hfind
      refine ⟨arg :: before, text, after, rfl, List.cons_ne_nil _ _, fun text ht => ?_, hwhole⟩
      simpa using hbefore text ht

/-! ## One argument -/

/-- A whole tree is placed in the empty object alike, in its order of keys. -/
theorem placeWhole_empty (mode mode' : WholeTreeMode) (flag : Flag) (whole : Tree) :
    placeWhole mode flag .empty whole = placeWhole mode' flag .empty whole := by
  unfold placeWhole
  cases withinDepth whole with
  | error e => rfl
  | ok whole =>
    rw [Outcome.ok_bind, Outcome.ok_bind]
    cases whole.unwrap with
    | object gs => cases mode <;> cases mode' <;> simp [Tree.empty_merge_object]
    | _ => rfl

variable {sources : Sources σ} {check : Tree → Action σ Unit} {index : Nat} {acc : Tree}

theorem Argument.place_mode {argument : Argument}
    (h : argument.isWholeTree = true → acc = .empty) (mode mode' : WholeTreeMode) (value : Tree) :
    argument.place mode acc value = argument.place mode' acc value := by
  cases argument with
  | wholeFile file =>
    obtain rfl := h rfl
    exact placeWhole_empty mode mode' _ value
  | wholeFactory id =>
    obtain rfl := h rfl
    exact placeWhole_empty mode mode' _ value
  | _ => rfl

theorem applyArgument_mode {argument : Argument}
    (h : argument.isWholeTree = true → index = 0 ∧ acc = .empty) (mode mode' : WholeTreeMode) :
    applyArgument sources mode index acc argument =
      applyArgument sources mode' index acc argument := by
  have hstands : ∀ mode, ¬ argument.Misplaced mode index := fun _ hm => hm.2.2 (h hm.1).1
  rw [Argument.applyArgument_of_not_misplaced (hstands mode),
    Argument.applyArgument_of_not_misplaced (hstands mode')]
  simp only [Argument.place_mode (fun hw => (h hw).2) mode mode']

/-- **A step is the same in both modes**, unless it is at a whole tree that is not the start. -/
theorem compileStep_mode {text : String}
    (h : writesWhole text = true → index = 0 ∧ acc = .empty) (mode mode' : WholeTreeMode) :
    compileStep sources mode check index acc text =
      compileStep sources mode' check index acc text := by
  cases hparse : Argument.parse text with
  | error e =>
    rw [compileStep, compileStep, hparse]
    rfl
  | ok argument =>
    rw [writesWhole_of_parse hparse] at h
    rw [compileStep_of_parse hparse, compileStep_of_parse hparse, applyArgument_mode h mode mode']

/-! ## Runs -/

theorem compileFrom_mode {all args : List String} (h : ∀ text ∈ args, writesWhole text = false)
    (mode mode' : WholeTreeMode) (index : Nat) (acc : Tree) :
    compileFrom sources mode check all index acc args =
      compileFrom sources mode' check all index acc args := by
  induction args generalizing index acc with
  | nil => rfl
  | cons text args ih =>
    rw [List.forall_mem_cons] at h
    rw [compileFrom, compileFrom, compileStep_mode (by simp [h.1]) mode mode']
    simp only [ih h.2]

/-- **The modes are one without a whole tree past the first place.** -/
theorem compileWithCheck_mode {args : List String} (h : WholeOnlyFirst args)
    (mode mode' : WholeTreeMode) :
    compileWithCheck sources mode check args = compileWithCheck sources mode' check args := by
  cases args with
  | nil => rfl
  | cons text args =>
    have hargs : ∀ text ∈ args, writesWhole text = false := h
    rw [compileWithCheck, compileWithCheck, compileFrom, compileFrom,
      compileStep_mode (fun _ => ⟨rfl, rfl⟩) mode mode']
    simp only [compileFrom_mode hargs mode mode']

theorem compileFrom_of_misplaced {text : String} {argument : Argument}
    (hparse : Argument.parse text = .ok argument) (hwhole : argument.isWholeTree = true)
    (hindex : index ≠ 0) (all after : List String) (s : σ) :
    compileFrom sources .firstOnly check all index acc (text :: after) s =
      (.error (.invalidArgument index text all (.misplacedWholeTree argument.flag)), s) :=
  (Compilation.Fails.misplaced hparse ⟨hwhole, rfl, hindex⟩).compileFrom_cons
    Compilation.notes_self all after []

section

variable {before : List String} {s s' : σ} {mode : WholeTreeMode}

/-- What compiles and comes before the first whole tree past the first place brings `firstOnly` to
it, where it fails. -/
theorem firstOnly_append_of_ok {text : String} {argument : Argument} {t : Tree}
    (hbefore : before ≠ []) (honly : WholeOnlyFirst before)
    (hparse : Argument.parse text = .ok argument) (hwhole : argument.isWholeTree = true)
    (h : compileWithCheck sources mode check before s = (.ok t, s')) (after : List String) :
    compileWithCheck sources .firstOnly check (before ++ text :: after) s =
      (.error (.invalidArgument before.length text (before ++ text :: after)
        (.misplacedWholeTree argument.flag)), s') := by
  rw [compileWithCheck_mode honly mode .firstOnly] at h
  have hindex : before.length ≠ 0 := fun h => hbefore (List.length_eq_zero_iff.1 h)
  exact (Compilation.compileWithCheck_append_of_ok h (text :: after)).trans
    (compileFrom_of_misplaced hparse hwhole hindex _ after s')

theorem compileWithCheck_mode_append_of_error {e : Error} (honly : WholeOnlyFirst before)
    (h : compileWithCheck sources mode check before s = (.error e, s')) :
    ∃ index text cause, index < before.length ∧ e = .invalidArgument index text before cause ∧
      ∀ mode' rest, compileWithCheck sources mode' check (before ++ rest) s =
        (.error (.invalidArgument index text (before ++ rest) cause), s') := by
  obtain ⟨index, text, cause, hlt, rfl, -⟩ := Compilation.compileWithCheck_append_of_error h
  refine ⟨index, text, cause, hlt, rfl, fun mode' => ?_⟩
  rw [compileWithCheck_mode honly mode mode'] at h
  obtain ⟨_, _, _, -, he, hmore⟩ := Compilation.compileWithCheck_append_of_error h
  cases he
  exact hmore

theorem wholeOnlyFirst_of_firstOnly_eq_ok {args : List String} {t : Tree}
    (h : compileWithCheck sources .firstOnly check args s = (.ok t, s')) : WholeOnlyFirst args := by
  by_contra hn
  obtain ⟨before, text, after, rfl, hbefore, honly, hwrites⟩ :=
    exists_first_of_not_wholeOnlyFirst hn
  obtain ⟨argument, hparse, hwhole⟩ := exists_parse_of_writesWhole hwrites
  cases hrun : compileWithCheck sources .firstOnly check before s with
  | mk outcome s₁ =>
    cases outcome with
    | ok u => cases h.symm.trans (firstOnly_append_of_ok hbefore honly hparse hwhole hrun after)
    | error e =>
      obtain ⟨_, _, _, -, -, hargs⟩ := compileWithCheck_mode_append_of_error honly hrun
      cases h.symm.trans (hargs .firstOnly (text :: after))

end

/-- **The two modes, compared.** Without a whole tree past the first place they end alike. At the
first whole tree past the first place, what comes before it decides, and its mode does not matter:
if that compiles, `firstOnly` fails at the whole tree, before any work for it, and if it fails, both
modes fail as it does. So `firstOnly` gives a tree exactly when `mergeAnywhere` gives it and no
whole tree stands past the first place. -/
theorem compileWithCheck_modes (sources : Sources σ) (check : Tree → Action σ Unit)
    (args : List String) (s : σ) :
    (WholeOnlyFirst args → compileWithCheck sources .firstOnly check args s =
      compileWithCheck sources .mergeAnywhere check args s) ∧
    (∀ before text after argument, args = before ++ text :: after → before ≠ [] →
      WholeOnlyFirst before → Argument.parse text = .ok argument → argument.isWholeTree = true →
      ∀ mode s',
        (∀ t, compileWithCheck sources mode check before s = (.ok t, s') →
          compileWithCheck sources .firstOnly check args s = (.error (.invalidArgument
            before.length text args (.misplacedWholeTree argument.flag)), s')) ∧
        ∀ e, compileWithCheck sources mode check before s = (.error e, s') →
          ∃ index text' cause, index < before.length ∧
            e = .invalidArgument index text' before cause ∧
            ∀ mode', compileWithCheck sources mode' check args s =
              (.error (.invalidArgument index text' args cause), s')) ∧
    ∀ t s', compileWithCheck sources .firstOnly check args s = (.ok t, s') ↔
      compileWithCheck sources .mergeAnywhere check args s = (.ok t, s') ∧ WholeOnlyFirst args := by
  refine ⟨fun h => ?_, ?_, fun t s' => ⟨fun h => ?_, fun ⟨h, honly⟩ => ?_⟩⟩
  · rw [compileWithCheck_mode h .firstOnly .mergeAnywhere]
  · rintro before text after argument rfl hbefore honly hparse hwhole mode s'
    refine ⟨fun t h => firstOnly_append_of_ok hbefore honly hparse hwhole h after, fun e h => ?_⟩
    obtain ⟨index, text', cause, hlt, he, hargs⟩ := compileWithCheck_mode_append_of_error honly h
    exact ⟨index, text', cause, hlt, he, fun mode' => hargs mode' (text :: after)⟩
  · have honly := wholeOnlyFirst_of_firstOnly_eq_ok h
    rw [compileWithCheck_mode honly .mergeAnywhere .firstOnly]
    exact ⟨h, honly⟩
  · rwa [compileWithCheck_mode honly .firstOnly .mergeAnywhere]

/-- A whole tree after an assignment is refused in one mode and merged in the other, and what the
assignment wrote stays before the keys of the tree. -/
theorem compileWithCheck_modes_second :
    let world : World :=
      ⟨⟨[("base", .constant (.object [("a", .null)]))]⟩, fun _ => .error .missing⟩
    let check : Tree → Action World Unit := fun _ => pure ()
    let args := ["tags=[]"] ++ ["--from-fn=base"]
    Argument.parse "--from-fn=base" = .ok (.wholeFactory "base") ∧ WholeOnlyFirst ["tags=[]"] ∧
      (compileWithCheck World.sources .firstOnly check ["tags=[]"] world).1 =
        .ok (.object [("tags", .array [])]) ∧
      (compileWithCheck World.sources .firstOnly check args world).1 =
        .error (.invalidArgument 1 "--from-fn=base" args (.misplacedWholeTree .fromFn)) ∧
      (compileWithCheck World.sources .mergeAnywhere check args world).1 =
        .ok (.object [("tags", .array []), ("a", .null)]) := by
  intro world check args
  have hparse : Argument.parse "--from-fn=base" = .ok (.wholeFactory "base") := rfl
  have honly : WholeOnlyFirst ["tags=[]"] := by simp [WholeOnlyFirst]
  have hbefore : (compileWithCheck World.sources .firstOnly check ["tags=[]"] world).1 =
      .ok (.object [("tags", .array [])]) := Outcome.toOption_eq_some.1 (by decide +kernel)
  obtain ⟨-, hfirst, -⟩ := compileWithCheck_modes World.sources check args world
  obtain ⟨hplaced, -⟩ := hfirst ["tags=[]"] "--from-fn=base" [] (.wholeFactory "base") rfl (by simp)
    honly hparse rfl .firstOnly
      (compileWithCheck World.sources .firstOnly check ["tags=[]"] world).2
  have hargs := hplaced _ (by rw [← hbefore])
  refine ⟨hparse, honly, hbefore, ?_, Outcome.toOption_eq_some.1 (by decide +kernel)⟩
  rw [hargs]
  rfl

end ConfigOverlay
