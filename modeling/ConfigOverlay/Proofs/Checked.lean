import ConfigOverlay.Proofs.FirstFailure
import ConfigOverlay.Proofs.Section
import ConfigOverlay.Proofs.World
import ConfigOverlay.Samples

/-!
# Checked entry points refine the plain ones

**Theorem (`checked_refines`).** A checked entry point gives nothing that the plain one does not
give. Where it fails and the plain one fails at an argument, it fails there too or before, and
where it says that a tree does not fit, it names the first argument whose tree does not.

A check that looks at the tree alone changes nothing on the way: a run with it is a run without it
whose trees it accepts (`Compilation.passes_pureCheck_iff`). So such a run ends as the plain one
does, or at the first tree that the check refuses (`Compilation.pureCheck_cases`). Compiling itself
never fails because a tree does not fit (`not_isMisfit_of_compile`), so an error that says so is
from the check, or from the last step; and after arguments the last step finds a tree that the
check has accepted.
-/

namespace ConfigOverlay

variable {σ α β L : Type}

namespace Compilation

/-! ## Runs with a pure check -/

/-- A check that looks at the tree alone. -/
def pureCheck (c : Tree → Except Error Unit) : Tree → Action σ Unit := fun t => .ofExcept (c t)

/-- The check of a plain run. -/
def noCheck : Tree → Action σ Unit := fun _ => pure ()

variable {sources : Sources σ} {mode : WholeTreeMode} {c : Tree → Except Error Unit} {index : Nat}
  {acc next : Tree} {text : String} {args : List String} {s s' : σ} {events : List Event}
  {trees : List Tree}

theorem passes_pureCheck_iff :
    Passes sources mode (pureCheck c) index acc text s next s' events ↔
      Passes sources mode noCheck index acc text s next s' events ∧ c next = .ok () := by
  constructor
  · rintro ⟨happlies, hcheck⟩
    cases hc : c next with
    | error e =>
      rw [pureCheck, hc] at hcheck
      cases hcheck
    | ok u =>
      rw [pureCheck, hc] at hcheck
      cases hcheck
      exact ⟨.mk happlies rfl, rfl⟩
  · rintro ⟨⟨happlies, hcheck⟩, hc⟩
    cases hcheck
    refine .mk happlies ?_
    rw [pureCheck, hc]
    rfl

theorem Fails.of_pureCheck {e : Error} {refused : Option Tree}
    (h : Fails sources mode (pureCheck c) index acc text s e s' events refused) :
    (∃ next, Passes sources mode noCheck index acc text s next s' events ∧ c next = .error e) ∨
      Fails sources mode noCheck index acc text s e s' events refused := by
  cases h with
  | unread hparse => exact .inr (.unread hparse)
  | misplaced hparse hmisplaced => exact .inr (.misplaced hparse hmisplaced)
  | missing hparse hstands hfetch => exact .inr (.missing hparse hstands hfetch)
  | unfit hparse hstands hfetch hplace => exact .inr (.unfit hparse hstands hfetch hplace)
  | @refused next _ _ _ _ happlies hcheck =>
    cases hc : c next with
    | ok u =>
      rw [pureCheck, hc] at hcheck
      cases hcheck
    | error e =>
      rw [pureCheck, hc] at hcheck
      cases hcheck
      exact .inl ⟨next, .mk happlies rfl, hc⟩

theorem Folds.of_pureCheck (h : Folds sources mode (pureCheck c) index acc s args trees s' events) :
    Folds sources mode noCheck index acc s args trees s' events ∧ ∀ t ∈ trees, c t = .ok () := by
  induction h with
  | nil => exact ⟨.nil, by simp⟩
  | cons hpasses _ ih =>
    obtain ⟨hplain, hc⟩ := passes_pureCheck_iff.1 hpasses
    exact ⟨.cons hplain ih.1, List.forall_mem_cons.2 ⟨hc, ih.2⟩⟩

/-! ## Prefixes of a run -/

theorem Folds.take {check : Tree → Action σ Unit}
    (h : Folds sources mode check index acc s args trees s' events) (n : Nat) :
    ∃ s'' events',
      Folds sources mode check index acc s (args.take n) (trees.take n) s'' events' := by
  induction h generalizing n with
  | nil => exact ⟨_, _, by simpa using .nil⟩
  | cons hpasses _ ih =>
    cases n with
    | zero => exact ⟨_, _, .nil⟩
    | succ n =>
      obtain ⟨s'', events', hrest⟩ := ih n
      exact ⟨s'', _, .cons hpasses hrest⟩

theorem Folds.append_singleton {check : Tree → Action σ Unit} {s'' : σ} {done : List Event}
    (h : Folds sources mode check index acc s args trees s' events)
    (hpasses : Passes sources mode check (index + args.length) (trees.getLastD acc) text s' next s''
      done) :
    Folds sources mode check index acc s (args ++ [text]) (trees ++ [next]) s''
      (events ++ done) := by
  induction h with
  | nil => simpa using Folds.cons hpasses .nil
  | @cons index acc next' s s₁ s₂ text' args trees done' events hp _ ih =>
    rw [List.append_assoc]
    refine .cons hp (ih ?_)
    rwa [List.getLastD_cons, List.length_cons, Nat.add_comm args.length, ← Nat.add_assoc] at hpasses

/-- The tree after each argument is what the arguments up to it compile to. -/
theorem Folds.compile_take (h : Folds sources mode noCheck 0 .empty s args trees s' events)
    {j : Nat} {t : Tree} (ht : trees[j]? = some t) :
    (compile sources mode (args.take (j + 1)) s).1 = .ok t := by
  obtain ⟨s'', events', hfolds⟩ := h.take (j + 1)
  have hrun := hfolds.compileWithCheck_eq notes_self
  have hlast : (trees.take (j + 1)).getLastD .empty = t := by
    rw [List.getLastD_eq_getLast?, List.getLast?_take]
    simp [ht]
  rw [hlast] at hrun
  exact congrArg Prod.fst hrun

theorem lt_of_compile_take {k i : Nat} {t : Tree} {cause : Error}
    (htake : (compile sources mode (args.take (k + 1)) s).1 = .ok t)
    (h : (compile sources mode args s).1 = .error (.invalidArgument i text args cause)) :
    k < i := by
  obtain ⟨before, text', after, trees, s₁, events₁, cause', s₂, events₂, refused, hargs, hfolds,
    hfails, he, -⟩ := notes_self.run_eq_error_iff.1 (Prod.ext h rfl)
  cases he
  by_contra hle
  obtain ⟨n, rfl⟩ := Nat.le.dest (Nat.not_lt.1 hle)
  have hrun := hfails.compileWithCheck_eq hfolds notes_self (after.take n)
  rw [hargs, Nat.add_assoc, List.take_length_add_append, List.take_succ_cons] at htake
  cases htake.symm.trans (congrArg Prod.fst hrun)

theorem exists_invalidArgument_of_compile {e : Error}
    (h : (compile sources mode args s).1 = .error e) :
    ∃ i text cause, e = .invalidArgument i text args cause := by
  obtain ⟨i, text, cause, -, he, -⟩ := compileWithCheck_append_of_error (Prod.ext h rfl)
  exact ⟨i, text, cause, he⟩

/-! ## How checked runs end -/

/-- The tree after the argument at a place is the first one that a check refuses. -/
structure FirstRefused (compiled : List String → Except Error Tree)
    (c : Tree → Except Error Unit) (args : List String) (k : Nat) (cause : Error) : Prop where
  refused : ∃ t, compiled (args.take (k + 1)) = .ok t ∧ c t = .error cause
  accepted : ∀ j < k, ∃ t, compiled (args.take (j + 1)) = .ok t ∧ c t = .ok ()

/-- **How a run with a pure check ends**: as the plain run does, with a tree that the check accepts
or with an error, or at the first tree that the check refuses. -/
theorem pureCheck_cases (sources : Sources σ) (mode : WholeTreeMode) (c : Tree → Except Error Unit)
    (args : List String) (s : σ) :
    (∃ t, (compile sources mode args s).1 = .ok t ∧
        (compileWithCheck sources mode (pureCheck c) args s).1 = .ok t ∧
        (args ≠ [] → c t = .ok ())) ∨
      (∃ e, (compile sources mode args s).1 = .error e ∧
        (compileWithCheck sources mode (pureCheck c) args s).1 = .error e) ∨
      ∃ k text cause, args[k]? = some text ∧
        (compileWithCheck sources mode (pureCheck c) args s).1 =
          .error (.invalidArgument k text args cause) ∧
        FirstRefused (fun args => (compile sources mode args s).1) c args k cause := by
  rcases @folds_or_stops _ sources mode (pureCheck c) 0 .empty s args with
    ⟨trees, s', events, hfolds⟩ | hstops
  · obtain ⟨hplain, hc⟩ := hfolds.of_pureCheck
    refine .inl ⟨trees.getLastD .empty, ?_, ?_, fun hne => ?_⟩
    · exact congrArg Prod.fst (hplain.compileWithCheck_eq notes_self)
    · exact congrArg Prod.fst (hfolds.compileWithCheck_eq notes_self)
    · have hlen := hfolds.length_eq
      have htrees : trees ≠ [] := by
        rintro rfl
        exact hne (List.length_eq_zero_iff.1 hlen.symm)
      rw [List.getLastD_eq_getLast?, List.getLast?_eq_some_getLast htrees]
      exact hc _ (List.getLast_mem htrees)
  · obtain ⟨before, text, after, trees, s₁, events₁, e, s₂, events₂, refused, rfl, hfolds,
      hfails⟩ := hstops
    rw [Nat.zero_add] at hfails
    have hrun := congrArg Prod.fst (hfails.compileWithCheck_eq hfolds notes_self after)
    obtain ⟨hplain, hc⟩ := hfolds.of_pureCheck
    rcases hfails.of_pureCheck with ⟨next, hpasses, hnext⟩ | hfails'
    · -- The trees up to the refused one are those of a plain run.
      have hall := hplain.append_singleton (by rwa [Nat.zero_add])
      have hlen := hplain.length_eq
      have htake : ∀ j t, j ≤ before.length → (trees ++ [next])[j]? = some t →
          (compile sources mode ((before ++ text :: after).take (j + 1)) s).1 = .ok t := by
        intro j t hj ht
        have he : (before ++ text :: after).take (j + 1) = (before ++ [text]).take (j + 1) := by
          rw [List.append_cons, List.take_append_of_le_length (by simpa using hj)]
        rw [he]
        exact hall.compile_take ht
      refine .inr (.inr ⟨before.length, text, e, by simp, hrun, ?_, fun j hj => ?_⟩)
      · exact ⟨next, htake _ _ (Nat.le_refl _) (by simp [← hlen]), hnext⟩
      · have hjt : j < trees.length := by omega
        refine ⟨trees[j], htake j _ (Nat.le_of_lt hj) ?_, hc _ (List.getElem_mem hjt)⟩
        rw [List.getElem?_append_left hjt, List.getElem?_eq_getElem hjt]
    · exact .inr (.inl
        ⟨_, congrArg Prod.fst (hfails'.compileWithCheck_eq hplain notes_self after), hrun⟩)

theorem accepted_of_compileWithCheck {t : Tree} (hne : args ≠ [])
    (h : (compileWithCheck sources mode (pureCheck c) args s).1 = .ok t) : c t = .ok () := by
  rcases pureCheck_cases sources mode c args s with ⟨t', -, ht, hc⟩ | ⟨e, -, he⟩ |
    ⟨k, text, cause, -, he, -⟩
  · cases h.symm.trans ht
    exact hc hne
  · cases h.symm.trans he
  · cases h.symm.trans he

end Compilation

open Compilation Outcome

/-! ## Trees that do not fit -/

/-- The error says that a tree does not fit its target: it does not bind, or it has undeclared
keys. -/
def Error.isMisfit (e : Error) : Bool :=
  match e.cause with
  | .bind _ | .unknownKeys _ => true
  | _ => false

/-- No document and no factory fails because a tree does not fit. -/
structure Answers.NeverMisfit (answers : Answers) : Prop where
  document : ∀ {path e}, answers.document path = .error e → e.isMisfit = false
  factory : ∀ {id e}, answers.factory id = .error e → e.isMisfit = false

theorem Error.isMisfit_atArgument (index : Nat) (text : String) (args : List String) (e : Error) :
    (Error.atArgument index text args e).isMisfit = e.isMisfit := rfl

theorem not_isMisfit_of_loadDocument {files : FileReader} {path : String} {e : Error}
    (h : loadDocument files path = .error e) : e.isMisfit = false := by
  rcases bind_eq_error.1 h with h | ⟨text, -, h⟩
  · obtain ⟨fault, -, rfl⟩ := mapError_eq_error.1 h
    rfl
  · obtain ⟨fault, -, rfl⟩ := mapError_eq_error.1 h
    rfl

/-- The documents of a world never do, nor do factories that fail only where their value cannot be
made into a tree. -/
theorem World.answers_neverMisfit {w : World}
    (h : ∀ f ∈ w.registry.factories, ∀ n e, f.2.make n = .error e → ∃ fault, e = .unbind fault) :
    w.answers.NeverMisfit where
  document he := not_isMisfit_of_loadDocument he
  factory {id e} he := by
    have he' : (w.registry.resolve id).1 = .error e := he
    rcases w.registry.resolve_cases id with hunknown | ⟨f, hf, hmake⟩
    · cases hunknown.symm.trans he'
      rfl
    · obtain ⟨fault, rfl⟩ := h f hf _ e (hmake.symm.trans he')
      rfl

/-! ### Compiling -/

theorem not_isMisfit_of_readAssignment {cs : List Char} {e : Error}
    (h : Argument.readAssignment cs = .error e) : e.isMisfit = false := by
  unfold Argument.readAssignment at h
  split at h
  · cases h
    rfl
  · split at h
    · cases h
    · cases h
      rfl

theorem not_isMisfit_of_read {form : Argument.Form} {cs : List Char} {e : Error}
    (h : form.read cs = .error e) : e.isMisfit = false := by
  cases form with
  | assignment make =>
    rcases bind_eq_error.1 h with h | ⟨⟨path, value⟩, -, h⟩
    · exact not_isMisfit_of_readAssignment h
    · cases h
  | whole make => cases h

theorem not_isMisfit_of_parse {text : String} {e : Error} (h : Argument.parse text = .error e) :
    e.isMisfit = false := by
  unfold Argument.parse at h
  dsimp only at h
  split at h
  · exact not_isMisfit_of_read h
  · split at h
    · cases h
      rfl
    · exact not_isMisfit_of_read h

theorem not_isMisfit_of_parseJson {text : String} {e : Error}
    (h : Literal.parseJson text = .error e) : e.isMisfit = false := by
  obtain ⟨error, -, rfl⟩ := mapError_eq_error.1 h
  rfl

theorem not_isMisfit_of_parseScalar {text : String} {e : Error}
    (h : Literal.parseScalar text = .error e) : e.isMisfit = false := by
  unfold Literal.parseScalar at h
  split at h
  · cases h
  · split_ifs at h
    cases h
    rfl

theorem not_isMisfit_of_withinDepth {t : Tree} {e : Error} (h : withinDepth t = .error e) :
    e.isMisfit = false := by
  unfold withinDepth at h
  split_ifs at h
  cases h
  rfl

theorem not_isMisfit_of_checkPosition {mode : WholeTreeMode} {index : Nat} {flag : Flag}
    {e : Error} (h : checkPosition mode index flag = .error e) : e.isMisfit = false := by
  unfold checkPosition at h
  split_ifs at h
  cases h
  rfl

theorem not_isMisfit_of_wholeEdit {mode : WholeTreeMode} {flag : Flag} {t : Tree} {e : Error}
    (h : wholeEdit mode flag t = .error e) : e.isMisfit = false := by
  rcases bind_eq_error.1 h with h | ⟨whole, -, h⟩
  · exact not_isMisfit_of_withinDepth h
  · dsimp only at h
    split at h
    · cases h
    · cases h
      rfl

theorem not_isMisfit_of_assignment {x : Except Error Tree} {path : KeyPath} {e : Error}
    (hx : ∀ e, x = .error e → e.isMisfit = false)
    (h : (do return .assign path (← withinDepth (← x)) : Except Error Edit) = .error e) :
    e.isMisfit = false := by
  rcases bind_eq_error.1 h with h | ⟨t, -, h⟩
  · exact hx e h
  · rcases bind_eq_error.1 h with h | ⟨t, -, h⟩
    · exact not_isMisfit_of_withinDepth h
    · cases h

theorem not_isMisfit_of_whole {x : Except Error Tree} {mode : WholeTreeMode} {index : Nat}
    {flag : Flag} {e : Error} (hx : ∀ e, x = .error e → e.isMisfit = false)
    (h : (do
      checkPosition mode index flag
      wholeEdit mode flag (← x) : Except Error Edit) = .error e) : e.isMisfit = false := by
  rcases bind_eq_error.1 h with h | ⟨_, -, h⟩
  · exact not_isMisfit_of_checkPosition h
  · rcases bind_eq_error.1 h with h | ⟨t, -, h⟩
    · exact hx e h
    · exact not_isMisfit_of_wholeEdit h

variable {sources : Sources σ} {answers : Answers} {inv : σ → Prop} {mode : WholeTreeMode}

theorem not_isMisfit_of_readEdit (hn : answers.NeverMisfit) {index : Nat} {text : String}
    {e : Error} (h : answers.readEdit mode index text = .error e) : e.isMisfit = false := by
  rcases bind_eq_error.1 h with h | ⟨argument, -, h⟩
  · exact not_isMisfit_of_parse h
  cases argument with
  | assign path value => exact not_isMisfit_of_assignment (fun _ => not_isMisfit_of_parseScalar) h
  | assignJson path value => exact not_isMisfit_of_assignment (fun _ => not_isMisfit_of_parseJson) h
  | assignFile path file => exact not_isMisfit_of_assignment (fun _ => hn.document) h
  | assignFactory path id => exact not_isMisfit_of_assignment (fun _ => hn.factory) h
  | wholeFile file => exact not_isMisfit_of_whole (fun _ => hn.document) h
  | wholeFactory id => exact not_isMisfit_of_whole (fun _ => hn.factory) h

theorem not_isMisfit_of_readEdits (hn : answers.NeverMisfit) {all : List String} {index : Nat}
    {args : List String} {e : Error} (h : answers.readEdits mode all index args = .error e) :
    e.isMisfit = false := by
  induction args generalizing index with
  | nil => cases h
  | cons text args ih =>
    rcases bind_eq_error.1 h with h | ⟨edit, -, h⟩
    · obtain ⟨cause, hread, rfl⟩ := mapError_eq_error.1 h
      rw [Error.isMisfit_atArgument]
      exact not_isMisfit_of_readEdit hn hread
    · rcases bind_eq_error.1 h with h | ⟨edits, -, h⟩
      · exact ih h
      · cases h

/-- **Compiling never fails because a tree does not fit.** -/
theorem not_isMisfit_of_compile (hsteady : sources.Steady answers inv) (hn : answers.NeverMisfit)
    {s : σ} (hs : inv s) {args : List String} {e : Error}
    (h : (compile sources mode args s).1 = .error e) : e.isMisfit = false := by
  obtain ⟨s', -, hrun⟩ := compile_eq hsteady mode args hs
  rw [hrun] at h
  cases hread : answers.readEdits mode args 0 args with
  | ok edits =>
    rw [hread] at h
    cases h
  | error e' =>
    rw [hread] at h
    cases h
    exact not_isMisfit_of_readEdits hn hread

theorem compile_outcome (hsteady : sources.Steady answers inv) {s s' : σ} (hs : inv s)
    (hs' : inv s') (args : List String) :
    (compile sources mode args s).1 = (compile sources mode args s').1 := by
  obtain ⟨_, -, h⟩ := compile_eq hsteady mode args hs
  obtain ⟨_, -, h'⟩ := compile_eq hsteady mode args hs'
  rw [h, h']

/-! ## Refinement -/

/-- **What a checked entry point owes the plain one.** -/
structure Refines (compiled : List String → Except Error Tree) (c : Tree → Except Error Unit)
    (args : List String) (plain checked : Except Error α) : Prop where
  /-- What it gives, the plain one gives. -/
  ok : ∀ a, checked = .ok a → plain = .ok a
  /-- Where the plain one fails at an argument, it fails there with the same error, or before. -/
  failed : ∀ e, compiled args = .error e → plain = .error e ∧
    ∃ i text cause, e = .invalidArgument i text args cause ∧
      ∃ k text' cause', checked = .error (.invalidArgument k text' args cause') ∧ k ≤ i ∧
        (k = i → checked = .error e)
  /-- Where it says that a tree does not fit, it names the first argument whose tree does not. -/
  misfit : args ≠ [] → ∀ e, checked = .error e → e.isMisfit = true →
    ∃ k text cause, args[k]? = some text ∧ e = .invalidArgument k text args cause ∧
      FirstRefused compiled c args k cause

theorem refines_of_check (hsteady : sources.Steady answers inv) (hn : answers.NeverMisfit)
    {s s' : σ} (hs : inv s) (hs' : inv s') (c : Tree → Except Error Unit)
    (finish : Tree → Except Error α)
    (hfinish : ∀ t e, c t = .ok () → finish t = .error e → e.isMisfit = false)
    (args : List String) :
    Refines (fun args => (compile sources mode args s').1) c args
      ((compile sources mode args s').1 >>= finish)
      ((compileWithCheck sources mode (pureCheck c) args s).1 >>= finish) := by
  have hcompiled : ∀ args, (compile sources mode args s).1 = (compile sources mode args s').1 :=
    compile_outcome hsteady hs hs'
  have hcases := pureCheck_cases sources mode c args s
  simp only [hcompiled] at hcases
  -- The checked run ends as the plain one does, in a tree or an error, or it is refused before.
  rcases hcases with ⟨t, ht, hct, hc⟩ | ⟨e, he, hce⟩ | ⟨k, text, cause, hk, hcheck, hfirst⟩
  · rw [ht, hct]
    refine ⟨fun a ha => ha, fun e he => ?_, fun hne e he hm => ?_⟩
    · cases ht.symm.trans he
    · rw [hfinish t e (hc hne) he] at hm
      cases hm
  · rw [he, hce]
    refine ⟨fun a ha => ha, fun e' he' => ?_, fun hne e' he' hm => ?_⟩
    · cases he.symm.trans he'
      obtain ⟨i, text, cause, rfl⟩ := exists_invalidArgument_of_compile he
      exact ⟨rfl, i, text, cause, rfl, i, text, cause, rfl, Nat.le_refl i, fun _ => rfl⟩
    · cases he'
      rw [not_isMisfit_of_compile hsteady hn hs' he] at hm
      cases hm
  · rw [hcheck]
    refine ⟨fun a ha => ?_, fun e he => ?_, fun hne e he _ => ?_⟩
    · cases ha
    · obtain ⟨i, text', cause', rfl⟩ := exists_invalidArgument_of_compile he
      obtain ⟨t, ht, -⟩ := hfirst.refused
      have hlt : k < i := lt_of_compile_take ht he
      refine ⟨?_, i, text', cause', rfl, k, text, cause, rfl, Nat.le_of_lt hlt, ?_⟩
      · rw [he]
        rfl
      · exact fun heq => absurd heq (Nat.ne_of_lt hlt)
    · cases he
      exact ⟨k, text, cause, hk, rfl, hfirst⟩

/-! ### Entry points -/

theorem exists_bind_of_discard {bind : Tree → Except Error β} {t : Tree}
    (h : discard (bind t) = .ok ()) : ∃ b, bind t = .ok b := by
  cases hb : bind t with
  | ok b => exact ⟨b, rfl⟩
  | error e => simp [hb] at h

/-- A tree that passes the check of a configuration target has a layer, and what is left is to load
it. -/
theorem exists_layer_of_check {target : ConfigTarget L α} {strict : Bool} {t : Tree}
    (h : target.check strict t = .ok ()) :
    ∃ layer, target.bindLayer t = .ok layer ∧ target.bind strict t = target.load layer := by
  rw [ConfigTarget.check] at h
  rw [ConfigTarget.bind]
  cases hb : target.bindLayer t with
  | error e =>
    cases strict with
    | false => simp [hb] at h
    | true => cases hv : target.validate t <;> simp [hb, hv] at h
  | ok layer =>
    refine ⟨layer, rfl, ?_⟩
    cases strict with
    | false => rfl
    | true =>
      cases hv : target.validate t with
      | error e => simp [hv] at h
      | ok u => rfl

/-- **Checked entry points refine the plain ones**, on steady sources that never fail because a tree
does not fit. What a checked entry point gives, the plain one gives. Where the plain one fails at
an argument, the checked one fails there with the same error, or at an argument before. Where the
checked one says that a tree does not fit, it names the first argument after which it does not.
After the arguments are compiled, binding never fails, and loading fails only where a required
setting has no value. -/
theorem checked_refines (hsteady : sources.Steady answers inv) (hn : answers.NeverMisfit)
    {s s' : σ} (hs : inv s) (hs' : inv s') (mode : WholeTreeMode) (args : List String)
    (bind : Tree → Except Error β) (target : ConfigTarget L α) (strict : Bool)
    (hload : ∀ layer e, target.load layer = .error e → ∃ key, e = .missingSetting key) :
    (Refines (fun args => (compile sources mode args s').1) (fun t => discard (bind t)) args
        (parse sources mode bind args s').1 (parseChecked sources mode bind args s).1 ∧
      (args ≠ [] → ∀ t,
        (compileWithCheck sources mode (pureCheck fun t => discard (bind t)) args s).1 = .ok t →
          ∃ b, bind t = .ok b)) ∧
    Refines (fun args => (compile sources mode args s').1) (target.check strict) args
        (load sources mode strict target args s').1
        (loadChecked sources mode strict target args s).1 ∧
      (args ≠ [] → ∀ t e,
        (compileWithCheck sources mode (pureCheck (target.check strict)) args s).1 = .ok t →
          target.bind strict t = .error e → ∃ key, e = .missingSetting key) := by
  -- What passes the check has a layer, so only loading it can fail.
  have hfinish : ∀ t e, target.check strict t = .ok () → target.bind strict t = .error e →
      ∃ key, e = .missingSetting key := by
    intro t e hc he
    obtain ⟨layer, -, hb⟩ := exists_layer_of_check hc
    exact hload layer e (hb.symm.trans he)
  refine ⟨⟨?_, fun hne t ht => ?_⟩, ?_, fun hne t e ht he => ?_⟩
  · rw [parse, parseChecked, Action.outcome_bind_ofExcept, Action.outcome_bind_ofExcept]
    refine refines_of_check hsteady hn hs hs' _ bind (fun t e hc he => ?_) args
    obtain ⟨b, hb⟩ := exists_bind_of_discard hc
    cases hb.symm.trans he
  · exact exists_bind_of_discard (accepted_of_compileWithCheck hne ht)
  · rw [load, loadChecked, Action.outcome_bind_ofExcept, Action.outcome_bind_ofExcept]
    refine refines_of_check hsteady hn hs hs' _ (target.bind strict) (fun t e hc he => ?_) args
    obtain ⟨key, rfl⟩ := hfinish t e hc he
    rfl
  · exact hfinish t e (accepted_of_compileWithCheck hne ht) he

/-- The place of the argument at which undeclared keys fail a run, and the keys. -/
def undeclaredKeys? {α : Type} : Except Error α → Option (Nat × List String)
  | .error (.invalidArgument index _ _ (.unknownKeys keys)) => some (index, keys)
  | _ => none

theorem eq_error_of_undeclaredKeys? {α : Type} {r : Except Error α} {index : Nat}
    {keys : List String} (h : undeclaredKeys? r = some (index, keys)) :
    ∃ text all, r = .error (.invalidArgument index text all (.unknownKeys keys)) := by
  unfold undeclaredKeys? at h
  split at h
  · cases h
    exact ⟨_, _, rfl⟩
  · cases h

/-- The second of three arguments writes a key that the schema does not declare, and the last one
is no assignment. -/
theorem checked_refines_server :
    let world : World := ⟨⟨[("base", .constant (.object [("port", .ofInt 1)]))]⟩,
      fun _ => .error .missing⟩
    let args := ["--from-fn=base", "database.typo=2", "debug"]
    let target := Samples.server.target
    let compiled := fun args => (compile World.sources .firstOnly args world).1
    world.registry.Pure ∧ world.answers.NeverMisfit ∧
      (∀ layer e, target.load layer = .error e → ∃ key, e = .missingSetting key) ∧
      Refines compiled (target.check true) args
        (load World.sources .firstOnly true target args world).1
        (loadChecked World.sources .firstOnly true target args world).1 ∧
      ∃ text all, (loadChecked World.sources .firstOnly true target args world).1 =
        .error (.invalidArgument 1 text all (.unknownKeys ["database.typo"])) := by
  intro world args target compiled
  have hpure : world.registry.Pure := by
    intro f hf m n
    rw [List.mem_singleton.1 hf]
    rfl
  have hn : world.answers.NeverMisfit := by
    apply World.answers_neverMisfit
    intro f hf n e he
    rw [List.mem_singleton.1 hf] at he
    cases he
  have hload : ∀ layer e, target.load layer = .error e → ∃ key, e = .missingSetting key :=
    fun _ _ => Schema.exists_missingSetting_of_loadLayer
  have hrefines := checked_refines (World.sources_steady world) hn ⟨hpure, rfl⟩ ⟨hpure, rfl⟩
    .firstOnly args (Schema.Shape.read .any) target true hload
  have hrun : undeclaredKeys?
      (loadChecked World.sources .firstOnly true target args world).1 =
      some (1, ["database.typo"]) := by decide +kernel
  exact ⟨hpure, hn, hload, hrefines.2.1, eq_error_of_undeclaredKeys? hrun⟩

end ConfigOverlay
