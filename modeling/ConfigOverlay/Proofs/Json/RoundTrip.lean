import ConfigOverlay.Proofs.Json.Scalar
import ConfigOverlay.Proofs.Tree

/-!
# Written JSON is read back

**Theorem (`parse_toJson`).** The JSON text of a tree whose numbers are integers is read back as
the tree without its atoms, with every object in its order, as long as the tree nests at most
`maxNesting` containers.

**Theorem (`parse_toJson_eq_error`).** Past that the text is refused, for its nesting.

Both are one induction over the tree. A member of a container is read back from its text whatever
comes behind it, so a list of members is read back one member at a time, up to the first that is
refused.
-/

namespace ConfigOverlay

namespace Tree

/-! ## Trees of integers -/

mutual

/-- Every number is an integer. -/
def integral : Tree → Bool
  | .number n => n.isInt
  | .array xs => integralItems xs
  | .object fs => integralFields fs
  | .atom t => t.integral
  | _ => true

def integralItems : List Tree → Bool
  | [] => true
  | x :: xs => x.integral && integralItems xs

def integralFields : List (String × Tree) → Bool
  | [] => true
  | (_, x) :: fs => x.integral && integralFields fs

end

@[simp] theorem integral_array {xs : List Tree} :
    (array xs).integral = true ↔ ∀ x ∈ xs, x.integral = true := by
  rw [integral]
  induction xs with
  | nil => simp [integralItems]
  | cons x xs ih => simp [integralItems, ih]

@[simp] theorem integral_object {fs : Fields Tree} :
    (object fs).integral = true ↔ ∀ f ∈ fs, f.2.integral = true := by
  rw [integral]
  induction fs with
  | nil => simp [integralFields]
  | cons f fs ih => simp [integralFields, ih]

end Tree

namespace Json

open Outcome

variable {α β : Type}

/-! ## Reading with more text behind -/

/-- The text is read to a value, whatever stops it. -/
def ReadsTo (reader : List Char → Except Fault (β × List Char)) (text : List Char) (x : β) : Prop :=
  ∀ rest, Stops rest → reader (text ++ rest) = .ok (x, rest)

/-- The text is refused for a reason, whatever stops it. -/
def FailsFor (reader : List Char → Except Fault (β × List Char)) (reason : Reason)
    (text : List Char) : Prop :=
  ∀ rest, Stops rest → ∃ unread, reader (text ++ rest) = .error ⟨reason, unread⟩

/-! ## Members of a container -/

/-- The texts of members with commas between them. -/
def joined : List (List Char) → List Char
  | [] => []
  | text :: texts => text ++ texts.flatMap (',' :: ·)

/-- The text of a field. -/
def fieldText (mark : List Char) (f : String × Tree) : List Char :=
  quote f.1 ++ ':' :: write mark f.2

theorem writeItems_eq (mark : List Char) (xs : List Tree) :
    writeItems mark xs = joined (xs.map (write mark)) := by
  induction xs with
  | nil => rfl
  | cons x xs ih =>
    rw [writeItems.eq_def]
    cases xs with
    | nil => rfl
    | cons y ys => simp [ih, joined]

theorem writeFields_eq (mark : List Char) (fs : List (String × Tree)) :
    writeFields mark fs = joined (fs.map (fieldText mark)) := by
  induction fs with
  | nil => rfl
  | cons f fs ih =>
    rw [writeFields.eq_def]
    cases fs with
    | nil => simp [joined, fieldText]
    | cons g gs => simp [ih, joined, fieldText]

/-- A text that starts with neither a blank nor the closing character. -/
def Opens (close : Char) (cs : List Char) : Prop :=
  ∃ c rest, cs = c :: rest ∧ isBlank c = false ∧ c ≠ close

theorem Opens.append {close : Char} {cs : List Char} (h : Opens close cs) (more : List Char) :
    Opens close (cs ++ more) := by
  obtain ⟨c, rest, rfl, hb, hc⟩ := h
  exact ⟨c, rest ++ more, rfl, hb, hc⟩

theorem skipBlanks_cons {c : Char} (h : isBlank c = false) (rest : List Char) :
    skipBlanks (c :: rest) = c :: rest := by
  rw [skipBlanks, List.dropWhile_cons_of_neg (by simp [h])]

section Members

variable {close : Char} {unfinished expected : Reason}
  {member : List Char → Except Fault (β × List Char)} {text : α → List Char} {value : α → β}

theorem readMembers_close (hb : isBlank close = false) (fuel : Nat) (first : Bool)
    (rest : List Char) :
    readMembers close unfinished expected member (fuel + 1) first (close :: rest) =
      .ok ([], rest) := by
  rw [readMembers, skipBlanks_cons hb]
  exact if_pos rfl

theorem readMembers_first {cs : List Char} (h : Opens close cs) (fuel : Nat) :
    readMembers close unfinished expected member (fuel + 1) true cs =
      member cs >>= fun r => (fun rs => (r.1 :: rs.1, rs.2)) <$>
        readMembers close unfinished expected member fuel false r.2 := by
  obtain ⟨c, rest, rfl, hb, hc⟩ := h
  rw [readMembers, skipBlanks_cons hb]
  dsimp only
  rw [if_neg hc]
  show (member (c :: rest) >>= _) = _
  rfl

theorem readMembers_comma {cs : List Char} (hcomma : ',' ≠ close) (h : Opens close cs)
    (fuel : Nat) :
    readMembers close unfinished expected member (fuel + 1) false (',' :: cs) =
      member cs >>= fun r => (fun rs => (r.1 :: rs.1, rs.2)) <$>
        readMembers close unfinished expected member fuel false r.2 := by
  obtain ⟨c, rest, rfl, hb, hc⟩ := h
  have hskip : skipComma close expected false (',' :: c :: rest) = .ok (c :: rest) := by
    simp [skipComma, skipBlanks_cons hb, hc]
  rw [readMembers, skipBlanks_cons (by decide)]
  dsimp only
  rw [if_neg hcomma, hskip, ok_bind]
  rfl

/-- Where one member stops, the next one or the end of the container stands. -/
theorem stops_members {close : Char} (hclose : Stops [close]) (texts : List (List Char))
    (rest : List Char) : Stops (texts.flatMap (',' :: ·) ++ close :: rest) := by
  cases texts with
  | nil => simpa [Stops] using hclose
  | cons text texts => exact stops_cons (by decide) _

/-- **Members are read back** from behind their commas. -/
theorem readMembers_flatMap (hb : isBlank close = false) (hcomma : ',' ≠ close)
    (hclose : Stops [close]) {xs : List α} (hopens : ∀ x ∈ xs, Opens close (text x))
    (hread : ∀ x ∈ xs, ReadsTo member (text x) (value x)) {fuel : Nat} (hfuel : xs.length < fuel)
    (rest : List Char) :
    readMembers close unfinished expected member fuel false
      ((xs.map text).flatMap (',' :: ·) ++ close :: rest) = .ok (xs.map value, rest) := by
  induction xs generalizing fuel with
  | nil =>
    obtain ⟨fuel, rfl⟩ : ∃ n, fuel = n + 1 := ⟨fuel - 1, by simp at hfuel; omega⟩
    exact readMembers_close hb fuel false rest
  | cons x xs ih =>
    rw [List.forall_mem_cons] at hopens hread
    rw [List.length_cons] at hfuel
    obtain ⟨fuel, rfl⟩ : ∃ n, fuel = n + 1 := ⟨fuel - 1, by omega⟩
    rw [List.map_cons, List.flatMap_cons, List.cons_append, List.cons_append, List.append_assoc,
      readMembers_comma hcomma (hopens.1.append _), hread.1 _ (stops_members hclose _ rest),
      ok_bind, ih hopens.2 hread.2 (by omega), Except.map_ok, List.map_cons]

theorem readMembers_flatMap_eq_error (hcomma : ',' ≠ close) (hclose : Stops [close])
    {reason : Reason} {xs : List α} (hopens : ∀ x ∈ xs, Opens close (text x))
    (hread : ∀ x ∈ xs, ReadsTo member (text x) (value x) ∨ FailsFor member reason (text x))
    (hfail : ∃ x ∈ xs, FailsFor member reason (text x)) {fuel : Nat} (hfuel : xs.length < fuel)
    (rest : List Char) :
    ∃ unread, readMembers close unfinished expected member fuel false
      ((xs.map text).flatMap (',' :: ·) ++ close :: rest) = .error ⟨reason, unread⟩ := by
  induction xs generalizing fuel with
  | nil => simp at hfail
  | cons x xs ih =>
    rw [List.forall_mem_cons] at hopens hread
    rw [List.length_cons] at hfuel
    obtain ⟨fuel, rfl⟩ : ∃ n, fuel = n + 1 := ⟨fuel - 1, by omega⟩
    rw [List.map_cons, List.flatMap_cons, List.cons_append, List.cons_append, List.append_assoc,
      readMembers_comma hcomma (hopens.1.append _)]
    have hstops := stops_members hclose (xs.map text) rest
    by_cases hx : FailsFor member reason (text x)
    · obtain ⟨unread, he⟩ := hx _ hstops
      exact ⟨unread, by rw [he, error_bind]⟩
    · have hxs : ∃ y ∈ xs, FailsFor member reason (text y) := by
        obtain ⟨y, hy, hyf⟩ := hfail
        rcases List.mem_cons.1 hy with rfl | hy
        · exact absurd hyf hx
        · exact ⟨y, hy, hyf⟩
      obtain ⟨unread, he⟩ := ih hopens.2 hread.2 hxs (show xs.length < fuel by omega)
      have hx' := (hread.1.resolve_right hx) _ hstops
      exact ⟨unread, by rw [hx', ok_bind, he, Except.map_error]⟩

/-- **The members of a container are read back** up to its end. -/
theorem readMembers_joined (hb : isBlank close = false) (hcomma : ',' ≠ close)
    (hclose : Stops [close]) {xs : List α} (hopens : ∀ x ∈ xs, Opens close (text x))
    (hread : ∀ x ∈ xs, ReadsTo member (text x) (value x)) {fuel : Nat} (hfuel : xs.length < fuel)
    (rest : List Char) :
    readMembers close unfinished expected member fuel true
      (joined (xs.map text) ++ close :: rest) = .ok (xs.map value, rest) := by
  obtain ⟨fuel, rfl⟩ : ∃ n, fuel = n + 1 := ⟨fuel - 1, by omega⟩
  cases xs with
  | nil => exact readMembers_close hb fuel true rest
  | cons x xs =>
    rw [List.forall_mem_cons] at hopens hread
    rw [List.length_cons] at hfuel
    rw [List.map_cons, joined, List.append_assoc, readMembers_first (hopens.1.append _),
      hread.1 _ (stops_members hclose _ rest), ok_bind,
      readMembers_flatMap hb hcomma hclose hopens.2 hread.2 (by omega), Except.map_ok,
      List.map_cons]

theorem readMembers_joined_eq_error (hcomma : ',' ≠ close) (hclose : Stops [close])
    {reason : Reason} {xs : List α} (hopens : ∀ x ∈ xs, Opens close (text x))
    (hread : ∀ x ∈ xs, ReadsTo member (text x) (value x) ∨ FailsFor member reason (text x))
    (hfail : ∃ x ∈ xs, FailsFor member reason (text x)) {fuel : Nat} (hfuel : xs.length < fuel)
    (rest : List Char) :
    ∃ unread, readMembers close unfinished expected member fuel true
      (joined (xs.map text) ++ close :: rest) = .error ⟨reason, unread⟩ := by
  obtain ⟨fuel, rfl⟩ : ∃ n, fuel = n + 1 := ⟨fuel - 1, by omega⟩
  cases xs with
  | nil => simp at hfail
  | cons x xs =>
    rw [List.forall_mem_cons] at hopens hread
    rw [List.length_cons] at hfuel
    rw [List.map_cons, joined, List.append_assoc, readMembers_first (hopens.1.append _)]
    have hstops := stops_members hclose (xs.map text) rest
    by_cases hx : FailsFor member reason (text x)
    · obtain ⟨unread, he⟩ := hx _ hstops
      exact ⟨unread, by rw [he, error_bind]⟩
    · have hxs : ∃ y ∈ xs, FailsFor member reason (text y) := by
        obtain ⟨y, hy, hyf⟩ := hfail
        rcases List.mem_cons.1 hy with rfl | hy
        · exact absurd hyf hx
        · exact ⟨y, hy, hyf⟩
      obtain ⟨unread, he⟩ := readMembers_flatMap_eq_error hcomma hclose hopens.2 hread.2 hxs
        (show xs.length < fuel by omega) rest
      have hx' := (hread.1.resolve_right hx) _ hstops
      exact ⟨unread, by rw [hx', ok_bind, he, Except.map_error]⟩

end Members

/-! ## Values by their first character -/

theorem ne_of_isDigit {c : Char} (h : c.isDigit = true) {d : Char} (hd : d.isDigit = false) :
    c ≠ d := by
  rintro rfl
  simp [hd] at h

theorem isBlank_of_isDigit {c : Char} (h : c.isDigit = true) : isBlank c = false := by
  simp [isBlank, ne_of_isDigit h (d := ' ') rfl, ne_of_isDigit h (d := '\t') rfl,
    ne_of_isDigit h (d := '\n') rfl, ne_of_isDigit h (d := '\r') rfl]

/-- No value starts with a blank or closes a container. -/
theorem exists_write_cons {t : Tree} (h : t.integral = true) :
    ∃ c cs, write [] t = c :: cs ∧ isBlank c = false ∧ c ≠ ']' ∧ c ≠ '}' := by
  induction t with
  | bool b => cases b <;> exact ⟨_, _, rfl, by decide⟩
  | number n =>
    cases n with
    | int k hk =>
      rw [write, Number.text, intText]
      split_ifs
      · exact ⟨_, _, rfl, by decide⟩
      · obtain ⟨c, cs, hcs, hc, -⟩ := exists_natText_cons k.natAbs
        exact ⟨c, cs, hcs, isBlank_of_isDigit hc, ne_of_isDigit hc rfl, ne_of_isDigit hc rfl⟩
    | float x => simp [Tree.integral, Number.isInt] at h
  | atom t ih => exact ih h
  | _ => exact ⟨_, _, rfl, by decide⟩

theorem opens_write {t : Tree} (h : t.integral = true) : Opens ']' (write [] t) := by
  obtain ⟨c, cs, hcs, hb, hc, -⟩ := exists_write_cons h
  exact ⟨c, cs, hcs, hb, hc⟩

theorem opens_fieldText (f : String × Tree) : Opens '}' (fieldText [] f) :=
  ⟨'"', _, rfl, by decide⟩

theorem readValue_of_readScalar? {c : Char} {cs : List Char}
    {r : Except Fault (Tree × List Char)} (hb : isBlank c = false)
    (h : readScalar? c cs = some r) (n : Nat) : readValue n (c :: cs) = r := by
  cases n <;> simp [readValue, skipBlanks_cons hb, h]

theorem readValue_zero_of_opens {c : Char} (h : c = '[' ∨ c = '{') (cs : List Char) :
    ∃ unread, readValue 0 (c :: cs) = .error ⟨.nestingLimit, unread⟩ := by
  rcases h with rfl | rfl
  · exact ⟨_, rfl⟩
  · exact ⟨_, rfl⟩

theorem readValue_bracket (n : Nat) (cs : List Char) :
    readValue (n + 1) ('[' :: cs) =
      (fun r => (Tree.array r.1, r.2)) <$> readItems (readValue n) cs := by
  rw [readValue, skipBlanks_cons (by decide)]
  rfl

theorem readValue_brace (n : Nat) (cs : List Char) :
    readValue (n + 1) ('{' :: cs) =
      (fun r => (Tree.object (Fields.ofPairs r.1), r.2)) <$> readFields (readValue n) cs := by
  rw [readValue, skipBlanks_cons (by decide)]
  rfl

/-! ## Values -/

theorem readsTo_number {m : Number} (h : m.isInt = true) (n : Nat) :
    ReadsTo (readValue n) m.text (.number m) := by
  intro rest hrest
  cases m with
  | float x => cases h
  | int k hk =>
    obtain ⟨hneg, hpos⟩ := readNumber_intText hk hrest
    rw [Number.text, intText]
    split_ifs with hk0
    · have hscalar : readScalar? '-' (natText k.natAbs ++ rest) =
          some (.ok (.number (.int k hk), rest)) := by
        simp [readScalar?, hneg hk0]
      exact readValue_of_readScalar? (by decide) hscalar n
    · obtain ⟨c, cs, hcs, hc, -⟩ := exists_natText_cons k.natAbs
      have hread := hpos (by omega)
      rw [hcs, List.cons_append] at hread ⊢
      refine readValue_of_readScalar? (isBlank_of_isDigit hc) ?_ n
      unfold readScalar?
      rw [if_neg (ne_of_isDigit hc rfl), if_neg (ne_of_isDigit hc rfl),
        if_neg (ne_of_isDigit hc rfl), if_neg (ne_of_isDigit hc rfl), if_pos hc, hread]
      rfl

theorem quote_append (s : String) (rest : List Char) :
    quote s ++ rest = '"' :: (s.toList.flatMap escape ++ '"' :: rest) := by
  simp [quote]

theorem readsTo_text (s : String) (n : Nat) : ReadsTo (readValue n) (quote s) (.text s) := by
  intro rest _
  rw [quote_append]
  refine readValue_of_readScalar? (by decide) ?_ n
  simp [readScalar?, readString_escape]

theorem readField_fieldText (item : List Char → Except Fault (Tree × List Char))
    (f : String × Tree) (rest : List Char) :
    readField item (fieldText [] f ++ rest) =
      (fun r => ((f.1, r.1), r.2)) <$> item (write [] f.2 ++ rest) := by
  rw [fieldText, List.append_assoc, quote_append, readField, readString_escape, ok_bind,
    List.cons_append]
  dsimp only
  rw [skipBlanks_cons (by decide)]
  show (item (write [] f.2 ++ rest) >>= _) = _
  rfl

theorem readsTo_field {item : List Char → Except Fault (Tree × List Char)} {f : String × Tree}
    {x : Tree} (h : ReadsTo item (write [] f.2) x) :
    ReadsTo (readField item) (fieldText [] f) (f.1, x) := by
  intro rest hrest
  rw [readField_fieldText, h rest hrest, Except.map_ok]

theorem failsFor_field {item : List Char → Except Fault (Tree × List Char)} {reason : Reason}
    {f : String × Tree} (h : FailsFor item reason (write [] f.2)) :
    FailsFor (readField item) reason (fieldText [] f) := by
  intro rest hrest
  obtain ⟨unread, he⟩ := h rest hrest
  exact ⟨unread, by rw [readField_fieldText, he, Except.map_error]⟩

theorem length_le_joined {close : Char} {texts : List (List Char)}
    (h : ∀ text ∈ texts, Opens close text) : texts.length ≤ (joined texts).length := by
  have hflat : ∀ ts : List (List Char), ts.length ≤ (ts.flatMap (',' :: ·)).length := by
    intro ts
    induction ts with
    | nil => simp
    | cons t ts ih =>
      rw [List.flatMap_cons, List.length_append, List.length_cons, List.length_cons]
      omega
  cases texts with
  | nil => simp
  | cons text texts =>
    obtain ⟨c, rest, rfl, -⟩ := h text (by simp)
    have hrest := hflat texts
    rw [joined, List.length_append, List.length_cons, List.length_cons]
    omega

section Containers

variable {item : List Char → Except Fault (Tree × List Char)} {reason : Reason}

/-- The characters between the ends of an array are fuel enough for its items. -/
theorem length_lt_writeItems {xs : List Tree} (hi : ∀ x ∈ xs, x.integral = true)
    (rest : List Char) : xs.length < (joined (xs.map (write [])) ++ rest).length + 1 := by
  have hopens : ∀ text ∈ xs.map (write []), Opens ']' text :=
    List.forall_mem_map.2 fun x hx => opens_write (hi x hx)
  have hlen := length_le_joined hopens
  rw [List.length_map] at hlen
  rw [List.length_append]
  omega

theorem length_lt_writeFields (fs : Fields Tree) (rest : List Char) :
    fs.length < (joined (fs.map (fieldText [])) ++ rest).length + 1 := by
  have hopens : ∀ text ∈ fs.map (fieldText []), Opens '}' text :=
    List.forall_mem_map.2 fun f _ => opens_fieldText f
  have hlen := length_le_joined hopens
  rw [List.length_map] at hlen
  rw [List.length_append]
  omega

theorem readItems_write {xs : List Tree} (hi : ∀ x ∈ xs, x.integral = true)
    (h : ∀ x ∈ xs, ReadsTo item (write [] x) x.erase) (rest : List Char) :
    readItems item (writeItems [] xs ++ ']' :: rest) = .ok (xs.map Tree.erase, rest) := by
  rw [readItems, writeItems_eq]
  exact readMembers_joined (by decide) (by decide) (stops_cons (by decide) _)
    (fun x hx => opens_write (hi x hx)) h (length_lt_writeItems hi _) rest

theorem readItems_write_eq_error {xs : List Tree} (hi : ∀ x ∈ xs, x.integral = true)
    (h : ∀ x ∈ xs, ReadsTo item (write [] x) x.erase ∨ FailsFor item reason (write [] x))
    (hfail : ∃ x ∈ xs, FailsFor item reason (write [] x)) (rest : List Char) :
    ∃ unread, readItems item (writeItems [] xs ++ ']' :: rest) = .error ⟨reason, unread⟩ := by
  rw [readItems, writeItems_eq]
  exact readMembers_joined_eq_error (by decide) (stops_cons (by decide) _)
    (fun x hx => opens_write (hi x hx)) h hfail (length_lt_writeItems hi _) rest

theorem readFields_write {fs : Fields Tree}
    (h : ∀ f ∈ fs, ReadsTo item (write [] f.2) f.2.erase) (rest : List Char) :
    readFields item (writeFields [] fs ++ '}' :: rest) =
      .ok (fs.map fun f => (f.1, f.2.erase), rest) := by
  rw [readFields, writeFields_eq]
  exact readMembers_joined (by decide) (by decide) (stops_cons (by decide) _)
    (fun f _ => opens_fieldText f) (fun f hf => readsTo_field (h f hf))
    (length_lt_writeFields fs _) rest

theorem readFields_write_eq_error {fs : Fields Tree}
    (h : ∀ f ∈ fs, ReadsTo item (write [] f.2) f.2.erase ∨ FailsFor item reason (write [] f.2))
    (hfail : ∃ f ∈ fs, FailsFor item reason (write [] f.2)) (rest : List Char) :
    ∃ unread, readFields item (writeFields [] fs ++ '}' :: rest) = .error ⟨reason, unread⟩ := by
  rw [readFields, writeFields_eq]
  obtain ⟨f, hf, hff⟩ := hfail
  exact readMembers_joined_eq_error (by decide) (stops_cons (by decide) _)
    (fun f _ => opens_fieldText f) (fun g hg => (h g hg).imp readsTo_field failsFor_field)
    ⟨f, hf, failsFor_field hff⟩ (length_lt_writeFields fs _) rest

end Containers

/-- Everything is read back up to a depth, and refused past it. -/
def ReadsUpTo (n : Nat) (t : Tree) : Prop :=
  (t.depth ≤ n → ReadsTo (readValue n) (write [] t) t.erase) ∧
    (n < t.depth → FailsFor (readValue n) .nestingLimit (write [] t))

theorem ReadsUpTo.or {n : Nat} {t : Tree} (h : ReadsUpTo n t) :
    ReadsTo (readValue n) (write [] t) t.erase ∨
      FailsFor (readValue n) .nestingLimit (write [] t) :=
  (Nat.lt_or_ge n t.depth).symm.imp h.1 h.2

theorem readsUpTo_of_depth_eq_zero {n : Nat} {t : Tree} (h0 : t.depth = 0)
    (h : ReadsTo (readValue n) (write [] t) t.erase) : ReadsUpTo n t :=
  ⟨fun _ => h, fun hn => absurd hn (by omega)⟩

theorem readsUpTo_array {xs : List Tree} (hi : ∀ x ∈ xs, x.integral = true)
    (h : ∀ n, ∀ x ∈ xs, ReadsUpTo n x) (n : Nat) : ReadsUpTo n (.array xs) := by
  have hwrite : ∀ rest,
      write [] (.array xs) ++ rest = '[' :: (writeItems [] xs ++ ']' :: rest) := by
    simp [write]
  cases n with
  | zero =>
    refine ⟨fun hn => absurd hn (by simp [Tree.depth]), fun _ rest _ => ?_⟩
    rw [hwrite]
    exact readValue_zero_of_opens (.inl rfl) _
  | succ n =>
    constructor
    · intro hn rest _
      rw [Tree.depth_array_le] at hn
      rw [hwrite, readValue_bracket, readItems_write hi fun x hx => (h n x hx).1 (hn x hx),
        Except.map_ok, Tree.erase_array]
    · intro hn rest _
      rw [← Nat.not_le, Tree.depth_array_le] at hn
      obtain ⟨x, hx, hxn⟩ : ∃ x ∈ xs, n < x.depth := by simpa using hn
      obtain ⟨unread, he⟩ := readItems_write_eq_error hi (fun y hy => (h n y hy).or)
        ⟨x, hx, (h n x hx).2 hxn⟩ rest
      exact ⟨unread, by rw [hwrite, readValue_bracket, he, Except.map_error]⟩

theorem readsUpTo_object {fs : Fields Tree} (hd : fs.Distinct)
    (h : ∀ n, ∀ f ∈ fs, ReadsUpTo n f.2) (n : Nat) : ReadsUpTo n (.object fs) := by
  have hwrite : ∀ rest,
      write [] (.object fs) ++ rest = '{' :: (writeFields [] fs ++ '}' :: rest) := by
    simp [write]
  cases n with
  | zero =>
    refine ⟨fun hn => absurd hn (by simp [Tree.depth]), fun _ rest _ => ?_⟩
    rw [hwrite]
    exact readValue_zero_of_opens (.inr rfl) _
  | succ n =>
    constructor
    · intro hn rest _
      rw [Tree.depth_object_le] at hn
      have hpairs : Fields.Distinct (fs.map fun f => (f.1, f.2.erase)) := by
        rwa [Fields.Distinct, Fields.keys_map fun _ => Tree.erase]
      rw [hwrite, readValue_brace, readFields_write fun f hf => (h n f hf).1 (hn f hf),
        Except.map_ok, Fields.ofPairs_of_distinct hpairs, Tree.erase_object]
    · intro hn rest _
      rw [← Nat.not_le, Tree.depth_object_le] at hn
      obtain ⟨f, hf, hfn⟩ : ∃ f ∈ fs, n < f.2.depth := by simpa using hn
      obtain ⟨unread, he⟩ := readFields_write_eq_error (fun g hg => (h n g hg).or)
        ⟨f, hf, (h n f hf).2 hfn⟩ rest
      exact ⟨unread, by rw [hwrite, readValue_brace, he, Except.map_error]⟩

/-- **Trees are read back** as far as they may nest, and refused past that. -/
theorem readsUpTo_write {t : Tree} (hw : t.WellFormed) (hi : t.integral = true) (n : Nat) :
    ReadsUpTo n t := by
  induction t generalizing n with
  | null =>
    exact readsUpTo_of_depth_eq_zero rfl fun rest _ => readValue_of_readScalar? (by decide) rfl n
  | bool b =>
    refine readsUpTo_of_depth_eq_zero rfl ?_
    cases b <;> exact fun rest _ => readValue_of_readScalar? (by decide) rfl n
  | number m => exact readsUpTo_of_depth_eq_zero rfl (readsTo_number hi n)
  | text s => exact readsUpTo_of_depth_eq_zero rfl (readsTo_text s n)
  | array xs ih =>
    rw [Tree.wellFormed_array] at hw
    rw [Tree.integral_array] at hi
    exact readsUpTo_array hi (fun n x hx => ih x hx (hw x hx) (hi x hx) n) n
  | object fs ih =>
    obtain ⟨hd, hw⟩ := Tree.wellFormed_object.1 hw
    rw [Tree.integral_object] at hi
    exact readsUpTo_object hd (fun n f hf => ih f.1 f.2 hf (hw f hf) (hi f hf) n) n
  | atom t ih =>
    rw [ReadsUpTo, Tree.depth_atom, Tree.erase_atom]
    exact ih (Tree.wellFormed_atom.1 hw) hi n

/-! ## Texts -/

theorem length_le_length_joined {texts : List (List Char)} {text : List Char} (h : text ∈ texts) :
    text.length ≤ (joined texts).length := by
  cases texts with
  | nil => simp at h
  | cons first texts =>
    rw [joined, List.length_append]
    rcases List.mem_cons.1 h with rfl | hm
    · omega
    · have hsub : (',' :: text).Sublist (texts.flatMap (',' :: ·)) := by
        rw [List.flatMap_def]
        exact List.sublist_flatten_of_mem (List.mem_map_of_mem hm)
      have := hsub.length_le
      rw [List.length_cons] at this
      omega

/-- A text is at least as long as the tree nests. -/
theorem depth_le_length_write (t : Tree) : t.depth ≤ (write [] t).length := by
  induction t with
  | array xs ih =>
    have hlen : (write [] (.array xs)).length = (joined (xs.map (write []))).length + 1 + 1 := by
      simp [write, writeItems_eq]
    rw [hlen]
    refine Tree.depth_array_le.2 fun x hx => ?_
    have hitem := length_le_length_joined (List.mem_map_of_mem (f := write []) hx)
    have hx := ih x hx
    omega
  | object fs ih =>
    have hlen : (write [] (.object fs)).length =
        (joined (fs.map (fieldText []))).length + 1 + 1 := by
      simp [write, writeFields_eq]
    rw [hlen]
    refine Tree.depth_object_le.2 fun f hf => ?_
    have hfield := length_le_length_joined (List.mem_map_of_mem (f := fieldText []) hf)
    have hx := ih f.1 f.2 hf
    rw [fieldText, List.length_append, List.length_cons] at hfield
    omega
  | atom t ih =>
    rw [Tree.depth_atom, write, List.nil_append]
    exact ih
  | _ => simp [Tree.depth]

/-- **The text of a tree is read back**, without atoms. -/
theorem parse_toJson {t : Tree} (hw : t.WellFormed) (hi : t.integral = true)
    (hd : t.depth ≤ maxNesting) : parse t.toJson = .ok t.erase := by
  have hread := (readsUpTo_write hw hi maxNesting).1 hd [] stops_nil
  rw [List.append_nil] at hread
  rw [parse, readText, Tree.toJson, String.toList_ofList, hread]
  rfl

/-- **The text of a tree that nests too deep is refused.** -/
theorem parse_toJson_eq_error {t : Tree} (hw : t.WellFormed) (hi : t.integral = true)
    (hd : maxNesting < t.depth) :
    ∃ position, parse t.toJson = .error ⟨.nestingLimit, position⟩ := by
  obtain ⟨unread, hread⟩ := (readsUpTo_write hw hi maxNesting).2 hd [] stops_nil
  rw [List.append_nil] at hread
  refine ⟨(Fault.locate ⟨.nestingLimit, unread⟩ (write [] t)).position, ?_⟩
  rw [parse, readText, Tree.toJson, String.toList_ofList, hread]
  rfl

end Json

end ConfigOverlay
