import ConfigOverlay.Json.Value
import ConfigOverlay.Proofs.Argument
import ConfigOverlay.Registry
import Mathlib.Data.List.Induction

/-!
# Runs of a registry

A registry starts empty and is used by calls, which register factories and run them, in any order
and with any failures in between.

**Theorem (`Registry.resolves_first_registered`).** After every run the identifiers are in
increasing order and well formed. A registration is refused when its identifier is malformed or an
earlier one succeeded for it, and then nothing changes. An identifier is unknown as long as no
registration of it succeeded. After that each look-up runs the factory of that registration once
more, and no other call does. And whatever the identifier is, arguments can name it.

A registry is read as the partial function from identifiers to factories. At one identifier a call
adds a factory (`find?_register`) or counts at most one more run of the factory there is
(`find?_perform`). What a run of calls says of the identifier changes in the same two ways, so the
run determines the registry (`find?_after_eq_some_iff`).
-/

namespace ConfigOverlay

/-! ## Identifiers -/

namespace Identifier

/-- An identifier is not empty and of printable ASCII characters, without blanks. -/
def WellFormed (id : String) : Prop := id ≠ "" ∧ ∀ c ∈ id.toList, '!' ≤ c ∧ c ≤ '~'

theorem isGraphic_iff {c : Char} : isGraphic c = true ↔ '!' ≤ c ∧ c ≤ '~' := by
  rw [isGraphic, Bool.and_eq_true, decide_eq_true_eq, decide_eq_true_eq]
  exact Iff.rfl

theorem wellFormed_iff {id : String} :
    WellFormed id ↔ id ≠ "" ∧ id.toList.all isGraphic = true := by
  simp only [WellFormed, List.all_eq_true, isGraphic_iff]

theorem fault?_of_wellFormed {id : String} (h : WellFormed id) : fault? id = none := by
  obtain ⟨hne, hall⟩ := wellFormed_iff.1 h
  rw [fault?, if_neg (by simpa using hne), if_pos hall]

theorem fault?_of_not_wellFormed {id : String} (h : ¬ WellFormed id) :
    fault? id = some (if id = "" then .empty else .unprintable) := by
  rw [fault?]
  by_cases hempty : id = ""
  · rw [if_pos hempty, if_pos (by simpa using hempty)]
  · have hall : ¬ id.toList.all isGraphic = true := fun hall => h (wellFormed_iff.2 ⟨hempty, hall⟩)
    rw [if_neg hempty, if_neg (by simpa using hempty), if_neg hall]

end Identifier

/-! ## Calls -/

/-- The factory of a host value that may change from call to call. Each call writes the value anew,
which can fail. -/
def Factory.unbinding (make : Nat → Except Schema.UnbindFault Json.Value) : Factory :=
  .new (Tree.unbindWith make)

namespace Registry

/-- A call on a registry. -/
inductive Call where
  | register (id : String) (make : Nat → Except Schema.UnbindFault Json.Value)
  | resolve (id : String)

/-- Whether a call looks an identifier up. -/
def Call.resolves (id : String) : Call → Bool
  | .register .. => false
  | .resolve id' => id' = id

/-- Make a call. A registration that fails gives no registry, and the one there was is kept. -/
def Call.perform : Call → Action Registry (Option Tree)
  | .register id make => fun r =>
    match r.register id (.unbinding make) with
    | .ok r' => (.ok none, r')
    | .error e => (.error e, r)
  | .resolve id => fun r => ((r.resolve id).1.map some, (r.resolve id).2)

/-- A new registry after a run of calls. -/
def after (calls : List Call) : Registry := calls.foldl (fun r c => (c.perform r).2) .empty

theorem after_append_singleton (calls : List Call) (c : Call) :
    after (calls ++ [c]) = (c.perform (after calls)).2 := by
  rw [after, List.foldl_append]
  rfl

/-- In a run of calls a registration succeeded, and these calls followed it. -/
def Registers (calls : List Call) (id : String)
    (make : Nat → Except Schema.UnbindFault Json.Value) (later : List Call) : Prop :=
  ∃ before, calls = before ++ .register id make :: later ∧
    ((Call.register id make).perform (after before)).1 = .ok none

/-! ## Factories by identifier -/

variable {id : String} {f : Factory} {r : Registry}
variable {make : Nat → Except Schema.UnbindFault Json.Value} {calls later : List Call}

/-- The factory of an identifier. -/
def find? (r : Registry) (id : String) : Option Factory := Fields.get? id r.factories

theorem find?_eq_none : r.find? id = none ↔ id ∉ r.ids := Fields.get?_eq_none

theorem mem_ids_of_find? (h : r.find? id = some f) : id ∈ r.ids := Fields.mem_keys_of_get? h

theorem exists_find? (h : id ∈ r.ids) : ∃ f, r.find? id = some f := Fields.exists_get?_iff.2 h

theorem resolve_of_find?_eq_none (h : r.find? id = none) :
    r.resolve id = (.error (.unknownIdentifier id), r) := by
  rw [find?] at h
  rw [resolve, h]

theorem resolve_of_find? (h : r.find? id = some f) :
    r.resolve id = (f.make f.calls, ⟨Fields.set id f.called r.factories⟩) := by
  rw [find?] at h
  rw [resolve, h]

/-! ## One call -/

theorem perform_register_of_not_wellFormed (h : ¬ Identifier.WellFormed id) :
    (Call.register id make).perform r =
      (.error (.invalidIdentifier id (if id = "" then .empty else .unprintable)), r) := by
  simp [Call.perform, register, Identifier.fault?_of_not_wellFormed h]

theorem perform_register_of_mem (h : Identifier.WellFormed id) (hid : id ∈ r.ids) :
    (Call.register id make).perform r = (.error (.duplicateIdentifier id), r) := by
  simp [Call.perform, register, contains, Identifier.fault?_of_wellFormed h, hid]

theorem perform_register_of_not_mem (h : Identifier.WellFormed id) (hid : id ∉ r.ids) :
    (Call.register id make).perform r =
      (.ok none, ⟨r.factories.insertSorted id (.unbinding make)⟩) := by
  simp [Call.perform, register, contains, Identifier.fault?_of_wellFormed h, hid]

/-- **A registration succeeds when its identifier is well formed and free**, and any other changes
nothing. -/
theorem perform_register_cases (r : Registry) (id : String)
    (make : Nat → Except Schema.UnbindFault Json.Value) :
    Identifier.WellFormed id ∧ id ∉ r.ids ∧ (Call.register id make).perform r =
      (.ok none, ⟨r.factories.insertSorted id (.unbinding make)⟩) ∨
    ∃ e, (Call.register id make).perform r = (.error e, r) := by
  by_cases hwf : Identifier.WellFormed id
  · by_cases hid : id ∈ r.ids
    · exact .inr ⟨_, perform_register_of_mem hwf hid⟩
    · exact .inl ⟨hwf, hid, perform_register_of_not_mem hwf hid⟩
  · exact .inr ⟨_, perform_register_of_not_wellFormed hwf⟩

theorem perform_register_eq_ok_iff :
    ((Call.register id make).perform r).1 = .ok none ↔ Identifier.WellFormed id ∧ id ∉ r.ids := by
  constructor
  · intro h
    rcases perform_register_cases r id make with ⟨hwf, hid, -⟩ | ⟨e, he⟩
    · exact ⟨hwf, hid⟩
    · rw [he] at h
      cases h
  · rintro ⟨hwf, hid⟩
    rw [perform_register_of_not_mem hwf hid]

theorem find?_register (h : ((Call.register id make).perform r).1 = .ok none) :
    ((Call.register id make).perform r).2.find? id = some (.unbinding make) := by
  obtain ⟨hwf, hid⟩ := perform_register_eq_ok_iff.1 h
  rw [perform_register_of_not_mem hwf hid]
  exact (Fields.get?_insertSorted hid _ id).trans (if_pos rfl)

/-- **Any other call keeps the factory of an identifier**, and counts a run of it if it looks the
identifier up. -/
theorem find?_perform {c : Call}
    (hc : ∀ make, c = .register id make → (c.perform r).1 ≠ .ok none) :
    (c.perform r).2.find? id =
      (r.find? id).map fun f => if c.resolves id then f.called else f := by
  cases c with
  | register l make =>
    simp only [Call.resolves, Bool.false_eq_true, if_false, Option.map_id']
    rcases perform_register_cases r l make with ⟨-, hl, he⟩ | ⟨e, he⟩
    · have hne : id ≠ l := by
        rintro rfl
        exact hc make rfl (by rw [he])
      rw [he]
      exact (Fields.get?_insertSorted hl _ id).trans (if_neg hne)
    · rw [he]
  | resolve l =>
    show (r.resolve l).2.find? id = _
    cases hf : r.find? l with
    | none =>
      rw [resolve_of_find?_eq_none hf]
      by_cases hl : l = id
      · rw [← hl, hf]
        rfl
      · simp [Call.resolves, hl]
    | some f =>
      rw [resolve_of_find? hf, find?, Fields.get?_set]
      by_cases hl : l = id
      · subst hl
        simp [Call.resolves, hf]
      · simp [Call.resolves, hl, Ne.symm hl, find?]

/-- The identifiers are well formed and in increasing order. -/
structure Ordered (r : Registry) : Prop where
  increasing : r.ids.Pairwise (· < ·)
  wellFormed : ∀ id ∈ r.ids, Identifier.WellFormed id

theorem ids_resolve (r : Registry) (id : String) : (r.resolve id).2.ids = r.ids := by
  cases hf : r.find? id with
  | none => rw [resolve_of_find?_eq_none hf]
  | some f =>
    rw [resolve_of_find? hf]
    exact (Fields.keys_set id f.called r.factories).trans (if_pos (mem_ids_of_find? hf))

/-- **Every call keeps the order.** -/
theorem Ordered.perform (h : r.Ordered) (c : Call) : (c.perform r).2.Ordered := by
  cases c with
  | register id make =>
    rcases perform_register_cases r id make with ⟨hwf, hid, he⟩ | ⟨e, he⟩
    · rw [he]
      refine ⟨Fields.pairwise_keys_insertSorted hid h.increasing _, fun k hk => ?_⟩
      rcases Fields.mem_keys_insertSorted.1 hk with rfl | hk
      · exact hwf
      · exact h.wellFormed k hk
    · rw [he]
      exact h
  | resolve id =>
    -- Counting a call moves no factory.
    have hids := ids_resolve r id
    exact ⟨hids ▸ h.increasing, hids ▸ h.wellFormed⟩

/-! ## Runs -/

theorem ordered_after (calls : List Call) : (after calls).Ordered := by
  induction calls using List.reverseRecOn with
  | nil => exact ⟨List.Pairwise.nil, nofun⟩
  | append_singleton calls c ih =>
    rw [after_append_singleton]
    exact ih.perform c

/-- The registration that succeeded was the last call, or it is one of the run before. -/
theorem registers_append_singleton {c : Call} :
    Registers (calls ++ [c]) id make later ↔
      (∃ later', later = later' ++ [c] ∧ Registers calls id make later') ∨
      later = [] ∧ c = .register id make ∧
        ((Call.register id make).perform (after calls)).1 = .ok none := by
  constructor
  · rintro ⟨before, he, hok⟩
    rcases List.eq_nil_or_concat later with rfl | ⟨later', c', rfl⟩
    · obtain ⟨rfl, hc⟩ := List.append_inj' he rfl
      exact .inr ⟨rfl, List.singleton_inj.1 hc, hok⟩
    · have he' : calls ++ [c] = before ++ .register id make :: later' ++ [c'] := by
        simpa using he
      obtain ⟨rfl, hc⟩ := List.append_inj' he' rfl
      obtain rfl := List.singleton_inj.1 hc
      exact .inl ⟨later', by simp, before, rfl, hok⟩
  · rintro (⟨later', rfl, before, rfl, hok⟩ | ⟨rfl, rfl, hok⟩)
    · exact ⟨before, by simp, hok⟩
    · exact ⟨calls, rfl, hok⟩

/-- What a run of calls says of the factory of an identifier: it is the one that was registered, and
it was called as often as the identifier was looked up since. -/
def Records (calls : List Call) (id : String) (f : Factory) : Prop :=
  ∃ make later, Registers calls id make later ∧
    f = ⟨Tree.unbindWith make, later.countP (Call.resolves id)⟩

theorem records_append_register
    (hok : ((Call.register id make).perform (after calls)).1 = .ok none)
    (hnew : ∀ g, ¬ Records calls id g) :
    Records (calls ++ [.register id make]) id f ↔ f = .unbinding make := by
  constructor
  · rintro ⟨make', later, hreg, rfl⟩
    rcases registers_append_singleton.1 hreg with ⟨later', rfl, hreg'⟩ | ⟨rfl, he, -⟩
    · exact absurd ⟨make', later', hreg', rfl⟩ (hnew _)
    · cases he
      rfl
  · rintro rfl
    exact ⟨make, [], registers_append_singleton.2 (.inr ⟨rfl, rfl, hok⟩), rfl⟩

/-- Any other call keeps what is on record, and counts a run if it looks the identifier up. -/
theorem records_append {c : Call}
    (hc : ∀ make, c = .register id make → (c.perform (after calls)).1 ≠ .ok none) :
    Records (calls ++ [c]) id f ↔
      ∃ g, Records calls id g ∧ (if c.resolves id then g.called else g) = f := by
  have hcount : ∀ make (later : List Call),
      (if c.resolves id
        then Factory.called ⟨Tree.unbindWith make, later.countP (Call.resolves id)⟩
        else ⟨Tree.unbindWith make, later.countP (Call.resolves id)⟩) =
      (⟨Tree.unbindWith make, (later ++ [c]).countP (Call.resolves id)⟩ : Factory) := by
    intro make later
    rw [List.countP_append, List.countP_singleton]
    split_ifs <;> rfl
  constructor
  · rintro ⟨make, later, hreg, rfl⟩
    rcases registers_append_singleton.1 hreg with ⟨later', rfl, hreg'⟩ | ⟨-, rfl, hok⟩
    · exact ⟨_, ⟨make, later', hreg', rfl⟩, hcount make later'⟩
    · exact absurd hok (hc make rfl)
  · rintro ⟨g, ⟨make, later, hreg, rfl⟩, rfl⟩
    exact ⟨make, later ++ [c], registers_append_singleton.2 (.inl ⟨later, rfl, hreg⟩),
      hcount make later⟩

/-- **A run determines the factories**: they are the ones on record. -/
theorem find?_after_eq_some_iff : (after calls).find? id = some f ↔ Records calls id f := by
  induction calls using List.reverseRecOn generalizing f with
  | nil =>
    have hnone : (after []).find? id = none := rfl
    rw [hnone]
    simp [Records, Registers]
  | append_singleton calls c ih =>
    rw [after_append_singleton]
    by_cases hnew : ∃ make, c = .register id make ∧ (c.perform (after calls)).1 = .ok none
    · obtain ⟨make, rfl, hok⟩ := hnew
      -- The identifier was free, so nothing was on record.
      have hfree : ∀ g, ¬ Records calls id g := fun g hg =>
        (perform_register_eq_ok_iff.1 hok).2 (mem_ids_of_find? (ih.2 hg))
      rw [find?_register hok, records_append_register hok hfree, Option.some.injEq, eq_comm]
    · have hc : ∀ make, c = .register id make → (c.perform (after calls)).1 ≠ .ok none :=
        fun make he hok => hnew ⟨make, he, hok⟩
      rw [find?_perform hc, records_append hc, Option.map_eq_some_iff]
      exact exists_congr fun g => and_congr_left' ih

/-- In a run of calls some registration of an identifier succeeded. -/
def Known (calls : List Call) (id : String) : Prop := ∃ make later, Registers calls id make later

theorem known_iff_mem_ids : Known calls id ↔ id ∈ (after calls).ids := by
  constructor
  · rintro ⟨make, later, hreg⟩
    exact mem_ids_of_find? (find?_after_eq_some_iff.2 ⟨make, later, hreg, rfl⟩)
  · intro hid
    obtain ⟨f, hf⟩ := exists_find? hid
    obtain ⟨make, later, hreg, -⟩ : Records calls id f := find?_after_eq_some_iff.1 hf
    exact ⟨make, later, hreg⟩

theorem perform_register_after_eq_ok_iff :
    ((Call.register id make).perform (after calls)).1 = .ok none ↔
      Identifier.WellFormed id ∧ ¬ Known calls id := by
  rw [perform_register_eq_ok_iff, known_iff_mem_ids]

/-- **At most one registration of an identifier succeeds.** -/
theorem Registers.unique {make' : Nat → Except Schema.UnbindFault Json.Value} {later' : List Call}
    (h : Registers calls id make later) (h' : Registers calls id make' later') :
    make' = make ∧ later' = later := by
  induction calls using List.reverseRecOn generalizing later later' with
  | nil =>
    obtain ⟨before, he, -⟩ := h
    simp at he
  | append_singleton calls c ih =>
    rcases registers_append_singleton.1 h with ⟨rest, rfl, hreg⟩ | ⟨rfl, hc, hok⟩
    · rcases registers_append_singleton.1 h' with ⟨rest', rfl, hreg'⟩ | ⟨rfl, hc', hok'⟩
      · obtain ⟨rfl, rfl⟩ := ih hreg hreg'
        exact ⟨rfl, rfl⟩
      · exact absurd ⟨make, rest, hreg⟩ (perform_register_after_eq_ok_iff.1 hok').2
    · rcases registers_append_singleton.1 h' with ⟨rest', rfl, hreg'⟩ | ⟨rfl, hc', -⟩
      · exact absurd ⟨make', rest', hreg'⟩ (perform_register_after_eq_ok_iff.1 hok).2
      · cases hc.symm.trans hc'
        exact ⟨rfl, rfl⟩

theorem resolve_after (h : Registers calls id make later) :
    ((after calls).resolve id).1 = Tree.unbindWith make (later.countP (Call.resolves id)) := by
  rw [resolve_of_find? (find?_after_eq_some_iff.2 ⟨make, later, h, rfl⟩)]

theorem unbindWith_ne_unknownIdentifier (n : Nat) :
    Tree.unbindWith make n ≠ .error (.unknownIdentifier id) := by
  intro h
  obtain ⟨fault, -, he⟩ := Outcome.mapError_eq_error.1 h
  cases he

/-- **An identifier is unknown until a registration of it succeeds.** -/
theorem resolve_after_eq_unknownIdentifier_iff :
    ((after calls).resolve id).1 = .error (.unknownIdentifier id) ↔ ¬ Known calls id := by
  constructor
  · rintro h ⟨make, later, hreg⟩
    rw [resolve_after hreg] at h
    exact unbindWith_ne_unknownIdentifier _ h
  · intro h
    rw [known_iff_mem_ids, ← find?_eq_none] at h
    rw [resolve_of_find?_eq_none h]

/-! ## Naming identifiers in arguments -/

theorem parse_fromFn (id : String) :
    Argument.parse ("--from-fn=" ++ id) = .ok (.wholeFactory id) := by
  have hwritten : (Argument.wholeFactory id).Written := nofun
  have hdisplay : (Argument.wholeFactory id).display = "--from-fn=" ++ id := rfl
  rw [← hdisplay]
  exact Argument.parse_display hwritten

theorem parse_setFromFn {path : KeyPath} (hne : path ≠ []) (h : path.Addressable) (id : String) :
    Argument.parse ("--set-from-fn=" ++ path.display ++ "=" ++ id) =
      .ok (.assignFactory path id) := by
  have hwritten : (Argument.assignFactory path id).Written := by
    rintro path ⟨⟩
    exact ⟨hne, h⟩
  have hassoc : ∀ flag before after : String,
      flag ++ before ++ "=" ++ after = flag ++ (before ++ "=" ++ after) := by
    intro flag before after
    rw [String.append_assoc, String.append_assoc, String.append_assoc]
  have hdisplay : (Argument.assignFactory path id).display =
      "--set-from-fn=" ++ path.display ++ "=" ++ id :=
    (hassoc "--set-from-fn=" path.display id).symm
  rw [← hdisplay]
  exact Argument.parse_display hwritten

/-! ## All runs -/

/-- **A registry over any run of calls.** Its identifiers are in increasing order and well formed. A
registration is refused when its identifier is malformed or was registered before, and changes
nothing then; any other succeeds. An identifier is unknown exactly when no registration of it
succeeded, and at most one does. From then on each look-up runs the factory of that registration
once, so the answer is the one that follows as many calls as there were look-ups since. And any
identifier can be named in an argument, alone or behind a path. -/
theorem resolves_first_registered (calls : List Call) :
    let r := after calls
    r.ids.Pairwise (· < ·) ∧ (∀ id ∈ r.ids, Identifier.WellFormed id) ∧
    (∀ id, id ∈ r.ids ↔ Known calls id) ∧
    (∀ id make, ¬ Identifier.WellFormed id → (Call.register id make).perform r =
      (.error (.invalidIdentifier id (if id = "" then .empty else .unprintable)), r)) ∧
    (∀ id make, Identifier.WellFormed id → Known calls id →
      (Call.register id make).perform r = (.error (.duplicateIdentifier id), r)) ∧
    (∀ id make, Identifier.WellFormed id → ¬ Known calls id →
      ((Call.register id make).perform r).1 = .ok none) ∧
    (∀ id, (r.resolve id).1 = .error (.unknownIdentifier id) ↔ ¬ Known calls id) ∧
    (∀ id make later, Registers calls id make later →
      (r.resolve id).1 = Tree.unbindWith make (later.countP (Call.resolves id)) ∧
      ∀ make' later', Registers calls id make' later' → make' = make ∧ later' = later) ∧
    ∀ id, Argument.parse ("--from-fn=" ++ id) = .ok (.wholeFactory id) ∧
      ∀ path : KeyPath, path ≠ [] → path.Addressable →
        Argument.parse ("--set-from-fn=" ++ path.display ++ "=" ++ id) =
          .ok (.assignFactory path id) := by
  intro r
  obtain ⟨hincreasing, hwf⟩ := ordered_after calls
  refine ⟨hincreasing, hwf, fun id => known_iff_mem_ids.symm,
    fun id make => perform_register_of_not_wellFormed, ?duplicate, ?new,
    fun id => resolve_after_eq_unknownIdentifier_iff, ?known, ?named⟩
  case duplicate =>
    exact fun id make hid hknown => perform_register_of_mem hid (known_iff_mem_ids.1 hknown)
  case new =>
    exact fun id make hid hknown => perform_register_after_eq_ok_iff.2 ⟨hid, hknown⟩
  case known =>
    exact fun id make later h => ⟨resolve_after h, fun make' later' h' => h.unique h'⟩
  case named =>
    exact fun id => ⟨parse_fromFn id, fun path hne h => parse_setFromFn hne h id⟩

/-- A factory that counts its calls, under an identifier that looks like an argument. Others try to
take the identifier, or a malformed one. -/
theorem resolves_first_registered_counter :
    let counter : Nat → Except Schema.UnbindFault Json.Value :=
      fun n => .ok (.array (List.replicate n .null))
    let refused : Nat → Except Schema.UnbindFault Json.Value := fun _ => .error .keyMustBeString
    let calls : List Call := [.register "--set=a" counter, .resolve "--set=a",
      .register "--set=a" refused, .register "has space" refused, .resolve "b", .resolve "--set=a"]
    let r := after calls
    ¬ Identifier.WellFormed "has space" ∧ Identifier.WellFormed "--set=a" ∧
      Identifier.WellFormed "b" ∧ Registers calls "--set=a" counter calls.tail ∧
      ¬ Known calls "b" ∧ KeyPath.Addressable ["db", "pool"] ∧
      (Call.register "has space" refused).perform r =
        (.error (.invalidIdentifier "has space" .unprintable), r) ∧
      (Call.register "--set=a" refused).perform r = (.error (.duplicateIdentifier "--set=a"), r) ∧
      ((Call.register "b" refused).perform r).1 = .ok none ∧
      (r.resolve "b").1 = .error (.unknownIdentifier "b") ∧
      (r.resolve "--set=a").1 = .ok (.array [.null, .null]) ∧
      Argument.parse "--set-from-fn=db.pool=--set=a" =
        .ok (.assignFactory ["db", "pool"] "--set=a") := by
  intro counter refused calls r
  have hspace : ¬ Identifier.WellFormed "has space" := by
    rw [Identifier.wellFormed_iff]
    decide
  have hflag : Identifier.WellFormed "--set=a" := Identifier.wellFormed_iff.2 (by decide)
  have hb : Identifier.WellFormed "b" := Identifier.wellFormed_iff.2 (by decide)
  have hreg : Registers calls "--set=a" counter calls.tail :=
    ⟨[], rfl, perform_register_eq_ok_iff.2 ⟨hflag, by simp [after, empty, ids, Fields.keys]⟩⟩
  have hunknown : ¬ Known calls "b" := by
    rintro ⟨make, later, before, he, -⟩
    have hmem : Call.register "b" make ∈ calls := by simp [he]
    simp [calls] at hmem
  have haddr : KeyPath.Addressable ["db", "pool"] := by simp [KeyPath.Addressable, isAddressable]
  obtain ⟨-, -, -, hinvalid, hduplicate, hnew, hresolve, hknown, hnamed⟩ :=
    resolves_first_registered calls
  refine ⟨hspace, hflag, hb, hreg, hunknown, haddr, ?_, ?_, ?_, ?_, ?_, ?_⟩
  · exact hinvalid "has space" refused hspace
  · exact hduplicate "--set=a" refused hflag ⟨counter, calls.tail, hreg⟩
  · exact hnew "b" refused hb hunknown
  · exact (hresolve "b").2 hunknown
  · exact (hknown "--set=a" counter calls.tail hreg).1
  · have htext : "--set-from-fn=" ++ KeyPath.display ["db", "pool"] ++ "=" ++ "--set=a" =
        "--set-from-fn=db.pool=--set=a" := by decide
    exact htext ▸ (hnamed "--set=a").2 ["db", "pool"] (List.cons_ne_nil _ _) haddr

end Registry

end ConfigOverlay
