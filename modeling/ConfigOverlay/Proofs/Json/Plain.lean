import ConfigOverlay.Json.Reader
import ConfigOverlay.Literal
import ConfigOverlay.Proofs.Outcome
import ConfigOverlay.Proofs.Tree

/-!
# What a text can write

A JSON text has no way to write an atom, and a key that it repeats is one key of the object it
writes. So every tree that is read from a text is plain, and so is every value written in an
argument.
-/

namespace ConfigOverlay

namespace Fields

variable {α : Type}

theorem forall_mem_ofPairs {P : α → Prop} {pairs : List (String × α)} (h : ∀ f ∈ pairs, P f.2) :
    ∀ f ∈ ofPairs pairs, P f.2 := by
  suffices hs : ∀ fs : Fields α, (∀ f ∈ fs, P f.2) →
      ∀ f ∈ pairs.foldl (fun fs p => set p.1 p.2 fs) fs, P f.2 from hs [] (by simp)
  induction pairs with
  | nil => exact fun fs hf => hf
  | cons p pairs ih =>
    rw [List.forall_mem_cons] at h
    exact fun fs hf => ih h.2 _ (forall_mem_set hf p.1 h.1)

end Fields

namespace Json

open Outcome

/-! ## Containers -/

/-- What holds of every member that is read holds of all members of a container. -/
theorem forall_mem_of_readMembers {α : Type} {P : α → Prop} {close : Char}
    {unfinished expected : Reason} {member : List Char → Except Fault (α × List Char)}
    (hmember : ∀ cs x rest, member cs = .ok (x, rest) → P x) {fuel : Nat} {first : Bool}
    {cs rest : List Char} {xs : List α}
    (h : readMembers close unfinished expected member fuel first cs = .ok (xs, rest)) :
    ∀ x ∈ xs, P x := by
  induction fuel generalizing first cs rest xs with
  | zero => simp [readMembers] at h
  | succ fuel ih =>
    rw [readMembers] at h
    split at h
    · cases h
    · split_ifs at h
      · cases h
        simp
      · obtain ⟨start, -, h⟩ := bind_eq_ok.1 h
        obtain ⟨⟨x, rest'⟩, hx, h⟩ := bind_eq_ok.1 h
        obtain ⟨⟨ys, rest''⟩, hys, h⟩ := bind_eq_ok.1 h
        cases h
        exact List.forall_mem_cons.2 ⟨hmember _ _ _ hx, ih hys⟩

theorem of_readField {P : Tree → Prop} {item : List Char → Except Fault (Tree × List Char)}
    (hitem : ∀ cs t rest, item cs = .ok (t, rest) → P t) (cs : List Char) (f : String × Tree)
    (rest : List Char) (h : readField item cs = .ok (f, rest)) : P f.2 := by
  unfold readField at h
  split at h
  · obtain ⟨⟨key, after⟩, -, h⟩ := bind_eq_ok.1 h
    dsimp only at h
    split at h
    · obtain ⟨⟨value, after'⟩, hv, h⟩ := bind_eq_ok.1 h
      cases h
      exact hitem _ _ _ hv
    · cases h
    · cases h
  · cases h

/-! ## Values -/

theorem plain_of_readScalar? {c : Char} {rest rest' : List Char} {t : Tree}
    (h : readScalar? c rest = some (.ok (t, rest'))) : t.Plain := by
  unfold readScalar? at h
  split_ifs at h <;> simp only [Option.some.injEq, map_eq_ok] at h
  all_goals
    obtain ⟨a, -, h⟩ := h
    cases h
    exact ⟨by simp, rfl⟩

/-- **Every value that is read is plain**, however deep it may nest. -/
theorem plain_of_readValue {allowance : Nat} {cs rest : List Char} {t : Tree}
    (h : readValue allowance cs = .ok (t, rest)) : t.Plain := by
  induction allowance generalizing cs rest t with
  | zero =>
    rw [readValue] at h
    split at h
    · cases h
    · split at h
      · rename_i hs
        exact plain_of_readScalar? (hs.trans (congrArg some h))
      · split_ifs at h
  | succ allowance ih =>
    rw [readValue] at h
    split at h
    · cases h
    · split at h
      · rename_i hs
        exact plain_of_readScalar? (hs.trans (congrArg some h))
      · split_ifs at h
        · obtain ⟨⟨xs, after⟩, hxs, h⟩ := bind_eq_ok.1 h
          cases h
          exact Tree.plain_array.2 (forall_mem_of_readMembers (fun _ _ _ => ih) hxs)
        · obtain ⟨⟨fs, after⟩, hfs, h⟩ := bind_eq_ok.1 h
          cases h
          have hall := forall_mem_of_readMembers (of_readField fun _ _ _ => ih) hfs
          exact Tree.plain_object.2 ⟨Fields.distinct_ofPairs fs, Fields.forall_mem_ofPairs hall⟩

/-- **A JSON text writes a plain tree.** -/
theorem plain_of_parse {text : String} {t : Tree} (h : parse text = .ok t) : t.Plain := by
  rw [parse, mapError_eq_ok, readText] at h
  obtain ⟨⟨t', rest⟩, ht, h⟩ := bind_eq_ok.1 h
  dsimp only at h
  split at h
  · cases h
    exact plain_of_readValue ht
  · cases h

end Json

namespace Literal

theorem plain_of_parseJson {text : String} {t : Tree} (h : parseJson text = .ok t) : t.Plain :=
  Json.plain_of_parse (Outcome.mapError_eq_ok.1 h)

theorem plain_of_parseScalar {text : String} {t : Tree} (h : parseScalar text = .ok t) :
    t.Plain := by
  unfold parseScalar at h
  split at h
  · rename_i t' ht
    cases h
    exact Json.plain_of_parse ht
  · split_ifs at h
    cases h
    exact Tree.plain_text text

end Literal

end ConfigOverlay
