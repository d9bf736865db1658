import ConfigOverlay.Proofs.Compilation
import ConfigOverlay.Proofs.Document
import ConfigOverlay.World

/-!
# Worlds that always answer alike

The files of a world never change. When its factories are pure, running one changes nothing but
the count of its calls, so a world is a steady source of documents and values
(`World.sources_steady`). Its documents are plain trees, and so are its values when the factories
make them plain (`World.answers_plain`).
-/

namespace ConfigOverlay

namespace Registry

/-- Every factory answers alike, however often it was called. -/
def Pure (r : Registry) : Prop := ∀ f ∈ r.factories, ∀ m n, f.2.make m = f.2.make n

theorem forall_make_of_resolve {P : (Nat → Except Error Tree) → Prop} {r : Registry}
    (hp : ∀ f ∈ r.factories, P f.2.make) (id : String) :
    ∀ f ∈ (r.resolve id).2.factories, P f.2.make := by
  rw [resolve]
  cases hf : r.factories.get? id with
  | none => exact hp
  | some f =>
    have hmake : P f.make := hp (id, f) (Fields.mem_of_get? hf)
    exact Fields.forall_mem_set (P := fun f : Factory => P f.make) hp id hmake

/-- Running a pure factory leaves the registry pure and every answer as it was. -/
theorem resolve_pure {r : Registry} (hp : r.Pure) (id : String) :
    (r.resolve id).2.Pure ∧ ∀ id', ((r.resolve id).2.resolve id').1 = (r.resolve id').1 := by
  refine ⟨forall_make_of_resolve (P := fun make => ∀ m n, make m = make n) hp id, fun id' => ?_⟩
  cases hf : r.factories.get? id with
  | none =>
    have he : (r.resolve id).2 = r := by rw [resolve, hf]
    rw [he]
  | some f =>
    have he : (r.resolve id).2 = ⟨r.factories.set id f.called⟩ := by rw [resolve, hf]
    rw [he, resolve, resolve, Fields.get?_set]
    by_cases hid : id' = id
    · rw [if_pos hid, hid, hf]
      -- The factory was called once more, which a pure one does not notice.
      exact hp _ (Fields.mem_of_get? hf) _ _
    · rw [if_neg hid]
      cases r.factories.get? id' <;> rfl

theorem resolve_cases (r : Registry) (id : String) :
    (r.resolve id).1 = .error (.unknownIdentifier id) ∨
      ∃ f ∈ r.factories, (r.resolve id).1 = f.2.make f.2.calls := by
  rw [resolve]
  cases hf : r.factories.get? id with
  | none => exact .inl rfl
  | some f => exact .inr ⟨(id, f), Fields.mem_of_get? hf, rfl⟩

theorem of_resolve_eq_ok {P : Tree → Prop} {r : Registry}
    (hp : ∀ f ∈ r.factories, ∀ n t, f.2.make n = .ok t → P t) {id : String} {t : Tree}
    (h : (r.resolve id).1 = .ok t) : P t := by
  rcases resolve_cases r id with hunknown | ⟨f, hf, hmake⟩
  · cases hunknown.symm.trans h
  · exact hp f hf _ t (hmake.symm.trans h)

end Registry

namespace World

/-- What the documents and factories of a world answer. -/
def answers (w : World) : Answers where
  document path := loadDocument w.files path
  factory id := (w.registry.resolve id).1

/-- **A world of pure factories always answers alike.** -/
theorem sources_steady (w : World) :
    sources.Steady w.answers fun w' => w'.registry.Pure ∧ w'.answers = w.answers where
  document path w' := by
    rintro ⟨hp, he⟩
    exact ⟨w', ⟨hp, he⟩, congrArg (fun a : Answers => (a.document path, w')) he⟩
  factory id w' := by
    rintro ⟨hp, he⟩
    obtain ⟨hpure, hsame⟩ := Registry.resolve_pure hp id
    refine ⟨{ w' with registry := (w'.registry.resolve id).2 }, ⟨hpure, ?_⟩, ?_⟩
    · rw [← he]
      exact congrArg (Answers.mk _) (funext hsame)
    · exact congrArg (fun a : Answers => (a.factory id, _)) he

theorem answers_plain {w : World}
    (h : ∀ f ∈ w.registry.factories, ∀ n t, f.2.make n = .ok t → t.Plain) : w.answers.Plain where
  document := plain_of_loadDocument
  factory ht := Registry.of_resolve_eq_ok h ht

theorem pure_and_plain_of_constant {t : Tree} (h : t.WellFormed) (id : String)
    (files : FileReader) :
    let w : World := ⟨⟨[(id, .constant t)]⟩, files⟩
    w.registry.Pure ∧ w.answers.Plain := by
  intro w
  refine ⟨?_, answers_plain ?_⟩
  all_goals
    intro f hf
    rw [List.mem_singleton.1 hf]
  · exact fun m n => rfl
  · rintro n u ⟨⟩
    exact h.plain_erase

end World

end ConfigOverlay
