import ConfigOverlay.Proofs.Argument
import ConfigOverlay.Proofs.Compilation
import ConfigOverlay.Proofs.Json.Characters

/-!
# The guard of plain assignments

A plain assignment takes JSON where the strict one does, so strict assignments that are accepted
may be given as plain ones (`compileWithCheck_loosens`). Any other text is kept as it is, unless
one of its characters announces structure.

The guard asks for one character more than its documentation names (`documentedChars`): the brace
that closes. A text that has it, but none of the documented characters, is never JSON, because
nothing opens in it; so it is refused (`parseScalar_closing_brace`). With neither, a text is a
word, a number or kept.
-/

namespace ConfigOverlay

open Outcome

/-! ## Texts -/

namespace Literal

/-- The characters that are documented to announce structure. -/
def documentedChars : List Char := ['[', ']', '{', '"']

theorem looksStructured_iff {text : String} :
    looksStructured text = true ↔ ∃ c ∈ text.toList, c ∈ structuredChars := by
  simp [looksStructured]

/-- The guard asks for the documented characters, and for the brace that closes. -/
theorem mem_structuredChars {c : Char} :
    c ∈ structuredChars ↔ c ∈ documentedChars ∨ c = '}' := by
  simp only [structuredChars, documentedChars, List.mem_cons, List.not_mem_nil]
  tauto

theorem not_mem_openers {c : Char} (h : c ∉ documentedChars) : c ∉ Json.openers := by
  simp only [documentedChars, Json.openers, List.mem_cons, List.not_mem_nil, not_or] at h ⊢
  tauto

theorem parseScalar_of_parseJson {text : String} {t : Tree} (h : parseJson text = .ok t) :
    parseScalar text = .ok t := by
  rw [parseScalar, mapError_eq_ok.1 h]

theorem parseScalar_of_structured {text : String} {e : Error} (h : parseJson text = .error e)
    (hs : looksStructured text = true) : parseScalar text = .error e := by
  obtain ⟨fault, hfault, rfl⟩ := mapError_eq_error.1 h
  rw [parseScalar, hfault]
  exact if_pos hs

theorem parseScalar_of_not_structured {text : String} {e : Error} (h : parseJson text = .error e)
    (hs : ¬ looksStructured text = true) : parseScalar text = .ok (.text text) := by
  obtain ⟨fault, hfault, rfl⟩ := mapError_eq_error.1 h
  rw [parseScalar, hfault]
  exact if_neg hs

/-- Without a documented character a text writes a word or a number, and no brace. -/
theorem bare_of_parseJson {text : String} {t : Tree}
    (hcs : ∀ c ∈ text.toList, c ∉ documentedChars) (h : parseJson text = .ok t) :
    (t = .null ∨ (∃ b, t = .bool b) ∨ ∃ n, t = .number n) ∧ '}' ∉ text.toList := by
  obtain ⟨hbare, hchars⟩ :=
    Json.bare_of_parse (fun c hc => not_mem_openers (hcs c hc)) (mapError_eq_ok.1 h)
  exact ⟨hbare, fun hbrace => absurd (hchars _ hbrace) (by decide)⟩

end Literal

/-! ## Arguments -/

namespace Argument

theorem parse_setJson (text : String) :
    Argument.parse ("--set-json=" ++ text) = (Form.assignment .assignJson).read text.toList := by
  simp [Argument.parse, spellings, findForm?, List.isPrefixOf?]

/-- An argument stays, or a strict assignment becomes a plain one. -/
inductive Loosens : String → String → Prop
  | refl (text : String) : Loosens text text
  | setJson (text : String) : Loosens ("--set-json=" ++ text) ("--set=" ++ text)

end Argument

section

variable {σ : Type} {sources : Sources σ} {mode : WholeTreeMode} {check : Tree → Action σ Unit}
  {index : Nat} {acc next : Tree} {s s' : σ}

theorem applyArgument_assign {path : KeyPath} {value : String}
    (h : applyArgument sources mode index acc (.assignJson path value) s = (.ok next, s')) :
    applyArgument sources mode index acc (.assign path value) s = (.ok next, s') := by
  have hstrict : applyArgument sources mode index acc (.assignJson path value) =
      .ofExcept (Literal.parseJson value >>= assignWithin acc path) := rfl
  have hplain : applyArgument sources mode index acc (.assign path value) =
      .ofExcept (Literal.parseScalar value >>= assignWithin acc path) := rfl
  rw [hstrict] at h
  rw [hplain]
  cases hvalue : Literal.parseJson value with
  | ok t => rwa [Literal.parseScalar_of_parseJson hvalue, ← hvalue]
  | error e =>
    rw [hvalue] at h
    cases h

theorem compileStep_loosens {text text' : String} (hl : Argument.Loosens text text')
    (h : compileStep sources mode check index acc text s = (.ok next, s')) :
    compileStep sources mode check index acc text' s = (.ok next, s') := by
  cases hl with
  | refl => exact h
  | setJson text =>
    cases hread : Argument.readAssignment text.toList with
    | error e =>
      rw [compileStep, Argument.parse_setJson, Argument.Form.read, hread] at h
      cases h
    | ok assignment =>
      have hparse : Argument.parse ("--set-json=" ++ text) =
          .ok (.assignJson assignment.1 assignment.2) := by
        rw [Argument.parse_setJson, Argument.Form.read, hread]
        rfl
      have hparse' : Argument.parse ("--set=" ++ text) =
          .ok (.assign assignment.1 assignment.2) := by
        rw [Argument.parse_set, Argument.Form.read, hread]
        rfl
      rw [compileStep_of_parse hparse] at h
      rw [compileStep_of_parse hparse']
      obtain ⟨placed, s₁, happly, h⟩ := Action.bind_eq_ok.1 h
      exact (Action.bind_of_ok (applyArgument_assign happly) _).trans h

theorem compileFrom_loosens {all all' args args' : List String}
    (hl : List.Forall₂ Argument.Loosens args args')
    (h : compileFrom sources mode check all index acc args s = (.ok next, s')) :
    compileFrom sources mode check all' index acc args' s = (.ok next, s') := by
  induction hl generalizing index acc s with
  | nil => exact h
  | cons hstep _ ih =>
    obtain ⟨middle, s₁, hfirst, h⟩ := compileFrom_cons_eq_ok.1 h
    exact compileFrom_cons_eq_ok.2 ⟨middle, s₁, compileStep_loosens hstep hfirst, ih h⟩

/-- **What strict assignments give is what plain ones give**, wherever they are accepted. -/
theorem compileWithCheck_loosens {args args' : List String}
    (hl : List.Forall₂ Argument.Loosens args args')
    (h : compileWithCheck sources mode check args s = (.ok next, s')) :
    compileWithCheck sources mode check args' s = (.ok next, s') :=
  compileFrom_loosens hl h

end

/-! ## The grammar -/

namespace Literal

/-- **The grammar of plain assignments.** A text that is JSON gives what it writes, and strict
assignments may be loosened. Any other text is refused for what is wrong with it as JSON, when one
of its characters announces structure, and is kept otherwise. A text without documented characters
is refused exactly when it has a closing brace, and gives no container. -/
theorem parseScalar_grammar (text : String) :
    (∀ t, parseJson text = .ok t → parseScalar text = .ok t) ∧
    (∀ {σ : Type} (sources : Sources σ) (mode : WholeTreeMode) (check : Tree → Action σ Unit)
        (args args' : List String) (t : Tree) (s s' : σ),
      List.Forall₂ Argument.Loosens args args' →
      compileWithCheck sources mode check args s = (.ok t, s') →
      compileWithCheck sources mode check args' s = (.ok t, s')) ∧
    (∀ e, parseJson text = .error e →
      (∃ fault, Json.parse text = .error fault ∧ e = .invalidJson text fault) ∧
      ((∃ c ∈ text.toList, c ∈ documentedChars ∨ c = '}') → parseScalar text = .error e) ∧
      ((∀ c ∈ text.toList, c ∉ documentedChars ∧ c ≠ '}') →
        parseScalar text = .ok (.text text))) ∧
    ((∀ c ∈ text.toList, c ∉ documentedChars) →
      ((∃ e, parseScalar text = .error e) ↔ '}' ∈ text.toList) ∧
      ∀ t, parseScalar text = .ok t →
        t = .text text ∨ t = .null ∨ (∃ b, t = .bool b) ∨ ∃ n, t = .number n) := by
  have hstructured : looksStructured text = true ↔
      ∃ c ∈ text.toList, c ∈ documentedChars ∨ c = '}' := by
    simp only [looksStructured_iff, mem_structuredChars]
  refine ⟨fun t => parseScalar_of_parseJson,
    fun sources mode check args args' t s s' => compileWithCheck_loosens,
    fun e he => ⟨?fault, fun hs => parseScalar_of_structured he (hstructured.2 hs), ?kept⟩,
    fun hcs => ?undocumented⟩
  case fault =>
    obtain ⟨fault, hfault, rfl⟩ := mapError_eq_error.1 he
    exact ⟨fault, hfault, rfl⟩
  case kept =>
    refine fun hplain => parseScalar_of_not_structured he fun hs => ?_
    obtain ⟨c, hc, hmem⟩ := hstructured.1 hs
    exact hmem.elim (hplain c hc).1 (hplain c hc).2
  case undocumented =>
    -- Only the closing brace is left to look structured, and no JSON without openers has it.
    have hbrace : looksStructured text = true ↔ '}' ∈ text.toList := by
      refine hstructured.trans ⟨?_, fun h => ⟨_, h, .inr rfl⟩⟩
      rintro ⟨c, hc, hmem⟩
      exact hmem.resolve_left (hcs c hc) ▸ hc
    cases hjson : parseJson text with
    | ok t =>
      obtain ⟨hbare, hnot⟩ := bare_of_parseJson hcs hjson
      rw [parseScalar_of_parseJson hjson]
      refine ⟨by simp [hnot], fun u hu => ?_⟩
      cases hu
      exact .inr hbare
    | error e =>
      by_cases hs : looksStructured text = true
      · rw [parseScalar_of_structured hjson hs]
        simp [hbrace.1 hs]
      · rw [parseScalar_of_not_structured hjson hs]
        refine ⟨by simp [mt hbrace.2 hs], fun u hu => ?_⟩
        cases hu
        exact .inl rfl

theorem parseScalar_grammar_port :
    let sources : Sources Unit := ⟨fun _ => pure .null, fun _ => pure .null⟩
    let tree : Tree := .object [("port", .ofInt 8080), ("mode", .text "b: 2")]
    parseJson "8080" = .ok (.ofInt 8080) ∧ parseScalar "8080" = .ok (.ofInt 8080) ∧
      compileWithCheck sources .firstOnly (fun _ => pure ())
        ["--set-json=port=8080", "mode=b: 2"] () = (.ok tree, ()) ∧
      compileWithCheck sources .firstOnly (fun _ => pure ())
        ["--set=port=8080", "mode=b: 2"] () = (.ok tree, ()) ∧
      (∀ c ∈ "8080".toList, c ∉ documentedChars) ∧ ¬ ∃ e, parseScalar "8080" = .error e := by
  intro sources tree
  have hjson : parseJson "8080" = .ok (.ofInt 8080) := toOption_eq_some.1 (by decide +kernel)
  have hloosens : List.Forall₂ Argument.Loosens ["--set-json=port=8080", "mode=b: 2"]
      ["--set=port=8080", "mode=b: 2"] :=
    .cons (.setJson "port=8080") (.cons (.refl _) .nil)
  have hrun : compileWithCheck sources .firstOnly (fun _ => pure ())
      ["--set-json=port=8080", "mode=b: 2"] () = (.ok tree, ()) :=
    Prod.ext (toOption_eq_some.1 (by decide +kernel)) (Subsingleton.elim _ _)
  have hplain : ∀ c ∈ "8080".toList, c ∉ documentedChars := by simp [documentedChars]
  obtain ⟨hsame, hloosen, -, hbare⟩ := parseScalar_grammar "8080"
  exact ⟨hjson, hsame _ hjson, hrun, hloosen _ _ _ _ _ _ _ _ hloosens hrun, hplain,
    fun h => absurd ((hbare hplain).1.1 h) (by decide)⟩

/-- A brace that closes is refused without a documented character. -/
theorem parseScalar_closing_brace :
    (∀ c ∈ "a\x7d".toList, c ∉ documentedChars) ∧
      parseScalar "a\x7d" = .error (.invalidJson "a\x7d" ⟨.expectedValue, ⟨1, 1⟩⟩) := by
  have hjson : Json.parse "a\x7d" = .error ⟨.expectedValue, ⟨1, 1⟩⟩ := by decide +kernel
  have hguard : looksStructured "a\x7d" = true := by decide +kernel
  refine ⟨by simp [documentedChars], ?_⟩
  rw [parseScalar, hjson]
  exact if_pos hguard

end Literal

end ConfigOverlay
