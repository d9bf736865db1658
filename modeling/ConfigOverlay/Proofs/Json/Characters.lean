import ConfigOverlay.Json.Reader
import ConfigOverlay.Proofs.Outcome
import Mathlib.Tactic.SplitIfs

/-!
# The characters of words and numbers

What a text can write without brackets, braces and quotes is a word or a number
(`bare_of_parse`). Their readers take digits, the letters of the words, signs, points and the
letters of exponents, and leave every other character to what follows (`Spans`). At the end of a
text nothing but blanks may follow, so such a text has no other characters.
-/

namespace ConfigOverlay.Json

open Outcome

variable {cs rest rest' : List Char}

/-- A character that stands in a word or in a number, or a blank around one. -/
def isBareChar (c : Char) : Bool :=
  isBlank c || c.isDigit ||
    ['n', 'u', 'l', 't', 'r', 'e', 'f', 'a', 's', '-', '+', '.', 'E'].contains c

/-- Every character before the rest is one of words, numbers and blanks. -/
def Spans (cs rest : List Char) : Prop := ∀ c ∈ cs, isBareChar c = true ∨ c ∈ rest

theorem isBareChar_of_isDigit {c : Char} (h : c.isDigit = true) : isBareChar c = true := by
  simp [isBareChar, h]

theorem spans_refl (cs : List Char) : Spans cs cs := fun _ => .inr

theorem Spans.cons {c : Char} (hc : isBareChar c = true) (h : Spans cs rest) :
    Spans (c :: cs) rest :=
  List.forall_mem_cons.2 ⟨.inl hc, h⟩

theorem Spans.trans (h : Spans cs rest) (h' : Spans rest rest') : Spans cs rest' :=
  fun c hc => (h c hc).elim .inl (h' c)

/-! ## Digits -/

theorem drop_length_takeWhile {α : Type} (p : α → Bool) (xs : List α) :
    xs.drop (xs.takeWhile p).length = xs.dropWhile p := by
  induction xs with
  | nil => rfl
  | cons x xs ih => cases h : p x <;> simp [h, ih]

theorem spans_dropWhile_isDigit (cs : List Char) : Spans cs (cs.dropWhile Char.isDigit) := by
  induction cs with
  | nil => exact spans_refl []
  | cons c cs ih =>
    rw [List.dropWhile_cons]
    split_ifs with hc
    · exact ih.cons (isBareChar_of_isDigit hc)
    · exact spans_refl (c :: cs)

theorem spans_readInteger (s : Nat) (cs : List Char) : Spans cs (readInteger s cs).2.2 := by
  induction cs generalizing s with
  | nil => exact spans_refl []
  | cons c cs ih =>
    rw [readInteger]
    dsimp only
    split_ifs with hc hs
    · exact (ih _).cons (isBareChar_of_isDigit hc)
    · dsimp only
      rw [drop_length_takeWhile]
      exact spans_dropWhile_isDigit (c :: cs)
    · exact spans_refl (c :: cs)

theorem spans_readFraction (s n : Nat) (cs : List Char) : Spans cs (readFraction s n cs).2.2 := by
  induction cs generalizing s n with
  | nil => exact spans_refl []
  | cons c cs ih =>
    rw [readFraction]
    dsimp only
    split_ifs with hc hs
    · exact (ih _ _).cons (isBareChar_of_isDigit hc)
    · exact spans_dropWhile_isDigit (c :: cs)
    · exact spans_refl (c :: cs)

theorem spans_readExponentDigits {vanishes : Bool} {e : Nat} {n : Option Nat}
    (h : readExponentDigits vanishes e cs = .ok (n, rest)) : Spans cs rest := by
  induction cs generalizing e with
  | nil =>
    cases h
    exact spans_refl []
  | cons c cs ih =>
    rw [readExponentDigits] at h
    dsimp only at h
    split_ifs at h with hc hs
    · exact (ih h).cons (isBareChar_of_isDigit hc)
    · cases h
      exact (spans_dropWhile_isDigit cs).cons (isBareChar_of_isDigit hc)
    · cases h
      exact spans_refl (c :: cs)

/-! ## Numbers -/

theorem eq_of_finishFloat {negative : Bool} {s : Nat} {e : Int} {n : Number}
    (h : finishFloat negative s e cs = .ok (n, rest)) : rest = cs := by
  unfold finishFloat at h
  split at h <;> cases h
  rfl

theorem spans_readExponent {negative : Bool} {s : Nat} {e : Int} {n : Number}
    (h : readExponent negative s e cs = .ok (n, rest)) : Spans cs rest := by
  unfold readExponent at h
  split at h
  rename_i negativeExponent digits hsign
  have hdigits : Spans digits rest := by
    split at h
    · cases h
    · split at h
      · rename_i hc
        obtain ⟨r, hr, h⟩ := bind_eq_ok.1 h
        refine Spans.cons (isBareChar_of_isDigit hc) ((spans_readExponentDigits hr).trans ?_)
        split at h
        · cases h
          exact spans_refl rest
        · rw [eq_of_finishFloat h]
          exact spans_refl _
      · cases h
  split at hsign <;> cases hsign
  · exact hdigits.cons rfl
  · exact hdigits.cons rfl
  · exact hdigits

theorem spans_readAfterFraction {negative : Bool} {s : Nat} {e : Int} {n : Number}
    (h : readAfterFraction negative s e cs = .ok (n, rest)) : Spans cs rest := by
  unfold readAfterFraction at h
  split at h
  · split_ifs at h with hc
    · exact (spans_readExponent h).cons (by rcases hc with rfl | rfl <;> rfl)
    · rw [eq_of_finishFloat h]
      exact spans_refl _
  · rw [eq_of_finishFloat h]
    exact spans_refl _

theorem spans_readAfterInteger {negative : Bool} {s dropped : Nat} {n : Number}
    (h : readAfterInteger negative s dropped cs = .ok (n, rest)) : Spans cs rest := by
  unfold readAfterInteger at h
  extract_lets plain at h
  have hplain (h : plain () = .ok (n, rest)) : rest = cs := by
    dsimp only [plain] at h
    split at h
    · split at h
      · cases h
        rfl
      · exact eq_of_finishFloat h
    · split at h
      · cases h
        rfl
      · split at h
        · cases h
          rfl
        · exact eq_of_finishFloat h
    · exact eq_of_finishFloat h
  split at h
  · split at h
    · cases h
    · split_ifs at h
      · exact ((spans_readFraction s 0 _).trans (spans_readAfterFraction h)).cons rfl
  · split_ifs at h with hc
    · exact (spans_readExponent h).cons (by rcases hc with rfl | rfl <;> rfl)
    · rw [hplain h]
      exact spans_refl _
  · rw [hplain h]
    exact spans_refl _

theorem spans_readNumber {negative : Bool} {n : Number}
    (h : readNumber negative cs = .ok (n, rest)) : Spans cs rest := by
  unfold readNumber at h
  split at h
  · cases h
  · refine Spans.cons rfl ?_
    split at h
    · split_ifs at h
      · exact spans_readAfterInteger h
    · exact spans_readAfterInteger h
  · split_ifs at h
    · exact (spans_readInteger 0 _).trans (spans_readAfterInteger h)

/-! ## Words and values -/

theorem spans_readWord {word : List Char} (hword : ∀ c ∈ word, isBareChar c = true)
    (h : readWord word cs = .ok rest) : Spans cs rest := by
  induction word generalizing cs with
  | nil =>
    cases h
    exact spans_refl _
  | cons w word ih =>
    obtain ⟨hw, hword⟩ := List.forall_mem_cons.1 hword
    cases cs with
    | nil => cases h
    | cons c cs =>
      rw [readWord] at h
      split_ifs at h with hc
      · exact (ih hword h).cons (hc ▸ hw)

theorem spans_skipBlanks (cs : List Char) : Spans cs (skipBlanks cs) := by
  induction cs with
  | nil => exact spans_refl []
  | cons c cs ih =>
    rw [skipBlanks, List.dropWhile_cons]
    split_ifs with hc
    · exact Spans.cons (by simp [isBareChar, hc]) ih
    · exact spans_refl (c :: cs)

theorem bare_of_readScalar? {c : Char} {t : Tree} (hc : c ≠ '"')
    (h : readScalar? c cs = some (.ok (t, rest))) :
    (t = .null ∨ (∃ b, t = .bool b) ∨ ∃ n, t = .number n) ∧ Spans (c :: cs) rest := by
  unfold readScalar? at h
  split_ifs at h <;> simp only [Option.some.injEq, map_eq_ok] at h <;>
    obtain ⟨r, hr, h⟩ := h <;> cases h
  · subst c
    exact ⟨.inl rfl, (spans_readWord (by simp [isBareChar]) hr).cons rfl⟩
  · subst c
    exact ⟨.inr (.inl ⟨true, rfl⟩), (spans_readWord (by simp [isBareChar]) hr).cons rfl⟩
  · subst c
    exact ⟨.inr (.inl ⟨false, rfl⟩), (spans_readWord (by simp [isBareChar]) hr).cons rfl⟩
  · subst c
    exact ⟨.inr (.inr ⟨_, rfl⟩), (spans_readNumber hr).cons rfl⟩
  · exact ⟨.inr (.inr ⟨_, rfl⟩), spans_readNumber hr⟩

/-- The characters with which a string and the containers open. -/
def openers : List Char := ['[', '{', '"']

theorem bare_of_readValue {allowance : Nat} {t : Tree} (hcs : ∀ c ∈ cs, c ∉ openers)
    (h : readValue allowance cs = .ok (t, rest)) :
    (t = .null ∨ (∃ b, t = .bool b) ∨ ∃ n, t = .number n) ∧ Spans cs rest := by
  rw [readValue.eq_def] at h
  dsimp only at h
  split at h
  · cases h
  · rename_i c after hskip
    have hc : c ∉ openers :=
      hcs c ((List.dropWhile_sublist _).mem (hskip ▸ List.mem_cons_self))
    simp only [openers, List.mem_cons, List.not_mem_nil, or_false, not_or] at hc
    split at h
    · rename_i hs
      obtain ⟨ht, hafter⟩ := bare_of_readScalar? hc.2.2 (hs.trans (congrArg some h))
      exact ⟨ht, (spans_skipBlanks cs).trans (hskip ▸ hafter)⟩
    · rw [if_neg (by tauto)] at h
      cases h

/-- **A text in which nothing opens writes a word or a number**, and it has no other characters
than those of words and numbers and the blanks around them. -/
theorem bare_of_parse {text : String} {t : Tree} (hcs : ∀ c ∈ text.toList, c ∉ openers)
    (h : parse text = .ok t) :
    (t = .null ∨ (∃ b, t = .bool b) ∨ ∃ n, t = .number n) ∧
      ∀ c ∈ text.toList, isBareChar c = true := by
  rw [parse, mapError_eq_ok, readText] at h
  obtain ⟨⟨t', rest⟩, ht, h⟩ := bind_eq_ok.1 h
  obtain ⟨hbare, hspans⟩ := bare_of_readValue hcs ht
  dsimp only at h
  split at h
  · rename_i hrest
    cases h
    refine ⟨hbare, fun c hc => ?_⟩
    -- Nothing is left behind the blanks after the value.
    simpa [hrest] using (hspans.trans (spans_skipBlanks rest)) c hc
  · cases h

end ConfigOverlay.Json
