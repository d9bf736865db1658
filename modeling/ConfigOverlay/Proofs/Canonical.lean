import ConfigOverlay.Proofs.Argument
import ConfigOverlay.Proofs.Outcome
import ConfigOverlay.World

/-!
# Canonical texts

An argument can be spelled in several ways. Its canonical text has the flags of the factories
without their other spellings, and `--set=` only where the path starts with a dash.

**Theorem (`compileWithCheck_canonical`).** The canonical text of an argument is read as the same
argument and differs from what was written in its flag only. So a list of arguments and the list of
their canonical texts compile alike, with the same work done: to the same tree, or to the same cause
at the same place.

Compiling looks at a text by reading it, and quotes it in errors. A map of texts that changes
nothing that is read therefore changes the quotes in the errors and nothing else
(`compileFrom_map`), and the canonical text is such a map (`parse_canonical`).
-/

namespace ConfigOverlay

namespace Argument

/-! ## What the canonical text changes -/

/-- A text written another way: with the first spelling of the flag of a factory, and without
`--set=` where no dash follows. -/
inductive Respells : String → String → Prop
  | wholeFactory (id : String) : Respells ("--from-py-fn=" ++ id) ("--from-fn=" ++ id)
  | assignFactory (rest : String) :
    Respells ("--set-from-py-fn=" ++ rest) ("--set-from-fn=" ++ rest)
  | assign {rest : String} (h : rest.toList.head? ≠ some '-') : Respells ("--set=" ++ rest) rest
  | kept {text : String} (hwhole : ∀ id, text ≠ "--from-py-fn=" ++ id)
    (hassign : ∀ rest, text ≠ "--set-from-py-fn=" ++ rest)
    (hset : ∀ rest, text = "--set=" ++ rest → rest.toList.head? = some '-') : Respells text text

theorem respells_flag (flag : String) (h : flag ∈ ["--set-json=", "--set-from-file=",
    "--set-from-fn=", "--from-file=", "--from-fn="]) (rest : String) :
    Respells (flag ++ rest) (flag ++ rest) := by
  simp only [List.mem_cons, List.not_mem_nil, or_false] at h
  obtain rfl | rfl | rfl | rfl | rfl := h
  all_goals refine .kept ?_ ?_ ?_ <;> simp [← String.toList_inj]

theorem respells_set (rest : String) :
    Respells ("--set=" ++ rest)
      (if rest.toList.head? = some '-' then "--set=" ++ rest else rest) := by
  split_ifs with h
  · refine .kept (by simp [← String.toList_inj]) (by simp [← String.toList_inj]) fun rest' he => ?_
    obtain rfl : rest = rest' := by simpa [← String.toList_inj] using he
    exact h
  · exact .assign h

theorem respells_self {text : String} (h : text.toList.head? ≠ some '-') : Respells text text := by
  refine .kept ?_ ?_ ?_
  all_goals
    rintro rest rfl
    simp at h

/-- Behind each flag, only the flag is written another way. -/
theorem respells_read {spelling : String} {form : Form} (hmem : (spelling, form) ∈ spellings)
    {rest : List Char} {argument : Argument} (h : form.read rest = .ok argument) :
    Respells (spelling ++ String.ofList rest) argument.display := by
  cases form with
  | whole make =>
    cases h
    obtain ⟨rfl, rfl⟩ | ⟨rfl, rfl⟩ | ⟨rfl, rfl⟩ :
        spelling = "--from-file=" ∧ make = .wholeFile ∨
        spelling = "--from-fn=" ∧ make = .wholeFactory ∨
        spelling = "--from-py-fn=" ∧ make = .wholeFactory := by simpa [spellings] using hmem
    · exact respells_flag "--from-file=" (by simp) _
    · exact respells_flag "--from-fn=" (by simp) _
    · exact .wholeFactory _
  | assignment make =>
    obtain ⟨path, value, hne, haddr, rfl, rfl⟩ := Form.read_assignment_eq_ok_iff.1 h
    rw [String.ofList_toList]
    obtain ⟨rfl, rfl⟩ | ⟨rfl, rfl⟩ | ⟨rfl, rfl⟩ | ⟨rfl, rfl⟩ | ⟨rfl, rfl⟩ :
        spelling = "--set=" ∧ make = .assign ∨
        spelling = "--set-json=" ∧ make = .assignJson ∨
        spelling = "--set-from-file=" ∧ make = .assignFile ∨
        spelling = "--set-from-fn=" ∧ make = .assignFactory ∨
        spelling = "--set-from-py-fn=" ∧ make = .assignFactory := by simpa [spellings] using hmem
    · show Respells _ (guarded path value)
      rw [guarded_eq hne haddr]
      exact respells_set _
    · exact respells_flag "--set-json=" (by simp) _
    · exact respells_flag "--set-from-file=" (by simp) _
    · exact respells_flag "--set-from-fn=" (by simp) _
    · exact .assignFactory _

/-- **Only the flag of an argument is written another way.** -/
theorem respells_display {text : String} {argument : Argument}
    (h : Argument.parse text = .ok argument) : Respells text argument.display := by
  rw [Argument.parse] at h
  dsimp only at h
  split at h
  · rename_i form rest hfind
    obtain ⟨spelling, hmem, htext⟩ := exists_spelling_of_findForm? hfind
    obtain rfl : text = spelling ++ String.ofList rest := String.toList_inj.1 (by simpa using htext)
    exact respells_read hmem h
  · split_ifs at h with hdash
    obtain ⟨path, value, hne, haddr, htext, rfl⟩ := Form.read_assignment_eq_ok_iff.1 h
    obtain rfl := String.toList_inj.1 htext
    show Respells _ (guarded path value)
    rw [guarded_eq hne haddr, if_neg hdash]
    exact respells_self hdash

/-! ## The canonical text -/

/-- The canonical text of what a text writes, and the text itself where it writes nothing. -/
def canonical (text : String) : String :=
  match Argument.parse text with
  | .ok argument => argument.display
  | .error _ => text

theorem canonical_of_parse {text : String} {argument : Argument}
    (h : Argument.parse text = .ok argument) : canonical text = argument.display := by
  rw [canonical, h]

/-- **The canonical text is read as the text is**, also where that is an error. -/
theorem parse_canonical (text : String) :
    Argument.parse (canonical text) = Argument.parse text := by
  cases h : Argument.parse text with
  | ok argument => rw [canonical_of_parse h, parse_display (written_of_parse h)]
  | error e => rw [canonical, h, h]

theorem canonical_canonical (text : String) : canonical (canonical text) = canonical text := by
  rw [canonical, parse_canonical]
  cases h : Argument.parse text with
  | ok argument => exact (canonical_of_parse h).symm
  | error e => rfl

end Argument

/-! ## Compiling -/

/-- The error of an argument with the texts that it quotes mapped. The cause stays. -/
def Error.requote (f : String → String) : Error → Error
  | .invalidArgument index argument arguments source =>
    .invalidArgument index (f argument) (arguments.map f) source
  | e => e

section

variable {σ : Type} {sources : Sources σ} {mode : WholeTreeMode} {check : Tree → Action σ Unit}

theorem compileStep_congr {text text' : String} (h : Argument.parse text = Argument.parse text')
    (index : Nat) (acc : Tree) :
    compileStep sources mode check index acc text =
      compileStep sources mode check index acc text' := by
  rw [compileStep, compileStep, h]

/-- **Texts that are read alike compile alike**, up to the quotes in the errors. -/
theorem compileFrom_map {f : String → String}
    (hf : ∀ text, Argument.parse (f text) = Argument.parse text) (all args : List String)
    (index : Nat) (acc : Tree) :
    compileFrom sources mode check (all.map f) index acc (args.map f) =
      (compileFrom sources mode check all index acc args).mapError (Error.requote f) := by
  induction args generalizing index acc with
  | nil => rfl
  | cons text args ih =>
    have hquote : Error.requote f ∘ Error.atArgument index text all =
        Error.atArgument index (f text) (all.map f) := rfl
    rw [List.map_cons, compileFrom, compileFrom, Action.mapError_bind, Action.mapError_mapError,
      hquote, compileStep_congr (hf text)]
    simp only [ih]

end

/-- **Canonical texts compile to the same.** The canonical text of an argument is read as it, is
its own canonical text, and differs from what was written in its flag only. A list of arguments and
the list of their canonical texts do the same work, and end in the same tree or, up to the texts
that are quoted, in the same error. -/
theorem compileWithCheck_canonical {σ : Type} (sources : Sources σ) (mode : WholeTreeMode)
    (check : Tree → Action σ Unit) (args : List String) :
    (∀ text argument, Argument.parse text = .ok argument →
      Argument.parse argument.display = .ok argument ∧
        Argument.Respells text argument.display) ∧
    (∀ text, Argument.canonical (Argument.canonical text) = Argument.canonical text) ∧
    compileWithCheck sources mode check (args.map Argument.canonical) =
      (compileWithCheck sources mode check args).mapError (Error.requote Argument.canonical) := by
  refine ⟨fun text argument h => ⟨?_, Argument.respells_display h⟩,
    Argument.canonical_canonical, ?_⟩
  · exact Argument.parse_display (Argument.written_of_parse h)
  · exact compileFrom_map Argument.parse_canonical args args 0 .empty

/-- Other spellings of both factory flags, a `--set=` that goes and one that stays. -/
theorem compileWithCheck_canonical_spellings :
    let world : World :=
      ⟨⟨[("base", .constant (.object [("a", .null)]))]⟩, fun _ => .error .missing⟩
    let check : Tree → Action World Unit := fun _ => pure ()
    let args := ["--from-py-fn=base", "--set=b=--set=c", "--set=-v=[]", "--set-from-py-fn=d=base"]
    let canonical := ["--from-fn=base", "b=--set=c", "--set=-v=[]", "--set-from-fn=d=base"]
    let t := Tree.object [("a", .null), ("b", .text "--set=c"), ("-v", .array []),
      ("d", .object [("a", .null)])]
    args.map Argument.canonical = canonical ∧
      Argument.parse "--from-py-fn=base" = .ok (.wholeFactory "base") ∧
      Argument.parse "--from-fn=base" = .ok (.wholeFactory "base") ∧
      Argument.Respells "--from-py-fn=base" "--from-fn=base" ∧
      (compileWithCheck World.sources .firstOnly check args world).1 = .ok t ∧
      (compileWithCheck World.sources .firstOnly check canonical world).1 = .ok t := by
  intro world check args canonical t
  have hargs : args.map Argument.canonical = canonical := by decide +kernel
  have hparse : Argument.parse "--from-py-fn=base" = .ok (.wholeFactory "base") := rfl
  have hrun : (compileWithCheck World.sources .firstOnly check args world).1 = .ok t :=
    Outcome.toOption_eq_some.1 (by decide +kernel)
  obtain ⟨hread, -, hcanonical⟩ := compileWithCheck_canonical World.sources .firstOnly check args
  obtain ⟨hagain, hrespells⟩ := hread _ _ hparse
  refine ⟨hargs, hparse, hagain, hrespells, hrun, ?_⟩
  rw [← hargs, hcanonical, Action.outcome_mapError, hrun]
  rfl

end ConfigOverlay
