import ConfigOverlay.Json.Reader
import ConfigOverlay.Json.Writer
import ConfigOverlay.Proofs.Outcome
import Mathlib.Tactic.SplitIfs

/-!
# Integers and strings are read back

The digits of an integer are read one by one into the integer they write, up to whatever stops a
number, and every character of a string is read back from its escape. What is read is always
followed by more text, so each lemma is about a text with an arbitrary rest.
-/

namespace ConfigOverlay.Json

open Outcome

variable {rest : List Char}

/-! ## Integers -/

/-- Nothing that a number could go on with. -/
def Stops (rest : List Char) : Prop :=
  ∀ c ∈ rest.head?, c.isDigit = false ∧ c ≠ '.' ∧ c ≠ 'e' ∧ c ≠ 'E'

theorem stops_nil : Stops [] := by simp [Stops]

theorem stops_cons {c : Char} (h : c.isDigit = false ∧ c ≠ '.' ∧ c ≠ 'e' ∧ c ≠ 'E')
    (rest : List Char) : Stops (c :: rest) := by
  simpa [Stops] using h

theorem digitValue_digitChar {d : Nat} (h : d < 10) : digitValue (Nat.digitChar d) = d :=
  Nat.toNat_digitChar_sub_48_of_lt_ten h

theorem readInteger_digitChar {s d : Nat} (hd : d < 10) (h : 10 * s + d < 2 ^ 64)
    (rest : List Char) :
    readInteger s (Nat.digitChar d :: rest) = readInteger (10 * s + d) rest := by
  rw [readInteger, if_pos (by simpa using hd), digitValue_digitChar hd]
  exact if_pos h

theorem readInteger_natText {m : Nat} (h : m < 2 ^ 64) (rest : List Char) :
    readInteger 0 (natText m ++ rest) = readInteger m rest := by
  induction m using Nat.strongRecOn generalizing rest with
  | ind m ih =>
    by_cases hm : m < 10
    · rw [natText, Nat.toDigits_of_lt_base hm]
      simpa using readInteger_digitChar (s := 0) hm (by omega) rest
    · -- All digits but the last, and then the last.
      have hdigits : natText m = natText (m / 10) ++ [Nat.digitChar (m % 10)] :=
        Nat.toDigits_of_base_le (by decide) (by omega)
      have hlast : 10 * (m / 10) + m % 10 = m := by omega
      rw [hdigits, List.append_assoc, List.singleton_append, ih (m / 10) (by omega) (by omega),
        readInteger_digitChar (by omega) (by omega), hlast]

/-- A number starts with a digit, which is zero for zero alone. -/
theorem exists_natText_cons (m : Nat) :
    ∃ c cs, natText m = c :: cs ∧ c.isDigit = true ∧ (c = '0' → m = 0 ∧ cs = []) := by
  induction m using Nat.strongRecOn with
  | ind m ih =>
    by_cases hm : m < 10
    · refine ⟨Nat.digitChar m, [], Nat.toDigits_of_lt_base hm, by simpa using hm, fun h => ?_⟩
      exact ⟨Nat.digitChar_eq_zero.1 h, rfl⟩
    · obtain ⟨c, cs, hcs, hc, hzero⟩ := ih (m / 10) (by omega)
      have hdigits : natText m = natText (m / 10) ++ [Nat.digitChar (m % 10)] :=
        Nat.toDigits_of_base_le (by decide) (by omega)
      refine ⟨c, cs ++ [Nat.digitChar (m % 10)], by rw [hdigits, hcs, List.cons_append], hc, ?_⟩
      intro h
      have := (hzero h).1
      omega

theorem readInteger_of_stops (h : Stops rest) (m : Nat) : readInteger m rest = (m, 0, rest) := by
  cases rest with
  | nil => rfl
  | cons c rest =>
    have hc := (h c rfl).1
    rw [readInteger, if_neg (by simp [hc])]

theorem readNumber_natText (h : Stops rest) (negative : Bool) {m : Nat} (hm : m < 2 ^ 64) :
    readNumber negative (natText m ++ rest) = readAfterInteger negative m 0 rest := by
  obtain ⟨c, cs, hcs, hc, hzero⟩ := exists_natText_cons m
  by_cases h0 : c = '0'
  · obtain ⟨rfl, rfl⟩ := hzero h0
    rw [hcs, h0]
    cases rest with
    | nil => rfl
    | cons d rest =>
      have hd := (h d rfl).1
      show (if d.isDigit = true then _ else _) = _
      rw [if_neg (by simp [hd])]
      rfl
  · have hread := readInteger_natText hm rest
    rw [hcs, List.cons_append] at hread ⊢
    unfold readNumber
    split
    · simp_all
    · simp_all
    · rename_i heq
      cases heq
      rw [if_pos hc, hread, readInteger_of_stops h]

theorem readAfterInteger_of_stops (h : Stops rest) {negative : Bool} {m : Nat} {n : Number}
    (hn : Number.ofInt? (if negative then -m else m) = some n) (hm : negative = true → m ≠ 0) :
    readAfterInteger negative m 0 rest = .ok (n, rest) := by
  unfold readAfterInteger
  extract_lets plain
  have hplain : plain () = .ok (n, rest) := by
    cases negative with
    | false =>
      rw [if_neg (by simp)] at hn
      simp only [plain, hn]
    | true =>
      rw [if_pos rfl] at hn
      simp only [plain, if_neg (hm rfl), hn]
  cases rest with
  | nil => exact hplain
  | cons c rest =>
    obtain ⟨-, hpoint, he, hE⟩ := h c rfl
    split
    · simp_all
    · rename_i heq
      cases heq
      rw [if_neg (by simp [he, hE])]
      exact hplain
    · simp_all

/-- **An integer is read back** from its text. -/
theorem readNumber_intText {k : Int} (hk : -2 ^ 63 ≤ k ∧ k < 2 ^ 64) (h : Stops rest) :
    (k < 0 → readNumber true (natText k.natAbs ++ rest) = .ok (.int k hk, rest)) ∧
      (0 ≤ k → readNumber false (natText k.natAbs ++ rest) = .ok (.int k hk, rest)) := by
  have hofInt : Number.ofInt? k = some (.int k hk) := dif_pos hk
  constructor
  · intro hneg
    rw [readNumber_natText h true (by omega)]
    refine readAfterInteger_of_stops h ?_ fun _ => by omega
    rw [if_pos rfl, ← hofInt]
    congr 1
    omega
  · intro hpos
    rw [readNumber_natText h false (by omega)]
    refine readAfterInteger_of_stops h ?_ nofun
    rw [if_neg (by simp), ← hofInt]
    congr 1
    omega

/-! ## Strings -/

theorem natural?_hexDigits {n : Nat} (h : n < 0x20) :
    natural? 16 ['0', '0', hexDigit (n / 16), hexDigit (n % 16)] = some n := by
  have hall : ∀ m < 0x20,
      natural? 16 ['0', '0', hexDigit (m / 16), hexDigit (m % 16)] = some m := by
    decide
  exact hall n h

theorem byteCount_hexDigits {n : Nat} (h : n < 0x20) :
    byteCount ['0', '0', hexDigit (n / 16), hexDigit (n % 16)] = 4 := by
  have hall : ∀ m < 0x20, byteCount ['0', '0', hexDigit (m / 16), hexDigit (m % 16)] = 4 := by
    decide
  exact hall n h

theorem readEscape_control {c : Char} (h : c.toNat < 0x20) (rest : List Char) :
    readEscape ('u' :: '0' :: '0' :: hexDigit (c.toNat / 16) :: hexDigit (c.toNat % 16) :: rest) =
      .ok (c, rest) := by
  have hcount := byteCount_hexDigits h
  have hvalue := natural?_hexDigits h
  have hhex : readHex4 ('0' :: '0' :: hexDigit (c.toNat / 16) :: hexDigit (c.toNat % 16) :: rest) =
      .ok (c.toNat, rest) := by
    unfold readHex4
    rw [if_neg (by simpa using by omega)]
    simp only [hvalue]
  unfold readEscape
  simp only [hhex, ok_bind]
  rw [if_neg (by omega), if_neg (by omega), Char.ofNat_toNat]
  rfl

theorem readChars_backslash (fuel : Nat) {escaped cs : List Char} {c : Char}
    (h : readEscape escaped = .ok (c, cs)) :
    readChars (fuel + 1) ('\\' :: escaped) = (fun r => (c :: r.1, r.2)) <$> readChars fuel cs := by
  rw [readChars, if_neg (by decide), if_pos rfl, h, ok_bind]
  dsimp only
  cases readChars fuel cs <;> rfl

/-- **A character is read back** from its escape. -/
theorem readChars_escape (fuel : Nat) (c : Char) (cs : List Char) :
    readChars (fuel + 1) (escape c ++ cs) = (fun r => (c :: r.1, r.2)) <$> readChars fuel cs := by
  unfold escape
  split_ifs with hquote hback hn hr ht hb hf hcontrol
  · subst hquote
    exact readChars_backslash fuel rfl
  · subst hback
    exact readChars_backslash fuel rfl
  · subst hn
    exact readChars_backslash fuel rfl
  · subst hr
    exact readChars_backslash fuel rfl
  · subst ht
    exact readChars_backslash fuel rfl
  · subst hb
    exact readChars_backslash fuel rfl
  · subst hf
    exact readChars_backslash fuel rfl
  · exact readChars_backslash fuel (readEscape_control hcontrol cs)
  · rw [List.singleton_append, readChars, if_neg hquote, if_neg hback, if_neg hcontrol]
    cases readChars fuel cs <;> rfl

theorem readChars_flatMap_escape {fuel : Nat} {cs : List Char} (h : cs.length < fuel)
    (rest : List Char) :
    readChars fuel (cs.flatMap escape ++ '"' :: rest) = .ok (cs, rest) := by
  induction cs generalizing fuel with
  | nil =>
    obtain ⟨fuel, rfl⟩ : ∃ n, fuel = n + 1 := ⟨fuel - 1, by simp at h; omega⟩
    rw [List.flatMap_nil, List.nil_append, readChars, if_pos rfl]
  | cons c cs ih =>
    rw [List.length_cons] at h
    obtain ⟨fuel, rfl⟩ : ∃ n, fuel = n + 1 := ⟨fuel - 1, by omega⟩
    rw [List.flatMap_cons, List.append_assoc, readChars_escape, ih (by omega), Except.map_ok]

theorem length_le_flatMap_escape (cs : List Char) : cs.length ≤ (cs.flatMap escape).length := by
  induction cs with
  | nil => simp
  | cons c cs ih =>
    have hc : 1 ≤ (escape c).length := by
      unfold escape
      split_ifs <;> simp
    rw [List.flatMap_cons, List.length_append, List.length_cons]
    omega

/-- **A string is read back** from between its quotes. -/
theorem readString_escape (s : String) (rest : List Char) :
    readString (s.toList.flatMap escape ++ '"' :: rest) = .ok (s, rest) := by
  have hlen := length_le_flatMap_escape s.toList
  have hfuel : s.toList.length < (s.toList.flatMap escape ++ '"' :: rest).length + 1 := by
    rw [List.length_append]
    omega
  rw [readString, readChars_flatMap_escape hfuel, ok_bind]
  simp

end ConfigOverlay.Json
