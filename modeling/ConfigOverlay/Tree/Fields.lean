/-!
# Ordered fields

The fields of an object, as key and value pairs in the order of their insertion. A key that is
already there keeps its position when its value changes, and a new key goes to the end.

Operations never make a key occur twice; `Fields.Distinct` is that invariant.
-/

namespace ConfigOverlay

/-- Keys with their values, in insertion order. -/
abbrev Fields (α : Type) := List (String × α)

namespace Fields

variable {α : Type}

/-- The keys in order. -/
def keys (fs : Fields α) : List String := fs.map Prod.fst

/-- The value of a key. -/
def get? (k : String) : Fields α → Option α
  | [] => none
  | (k', v) :: rest => if k = k' then some v else get? k rest

/-- Whether there is a field for the key. -/
def has (k : String) (fs : Fields α) : Bool := (fs.get? k).isSome

/-- Write a value under a key: in place when the key is there, at the end otherwise. -/
def set (k : String) (v : α) : Fields α → Fields α
  | [] => [(k, v)]
  | (k', v') :: rest => if k = k' then (k', v) :: rest else (k', v') :: set k v rest

/-- Insert a value under a key before the first greater key. -/
def insertSorted (k : String) (v : α) : Fields α → Fields α
  | [] => [(k, v)]
  | (k', v') :: rest =>
    if k < k' then (k, v) :: (k', v') :: rest else (k', v') :: insertSorted k v rest

/-- Remove a key, keeping the order of the others. -/
def erase (k : String) (fs : Fields α) : Fields α := fs.filter (·.1 ≠ k)

/-- The fields after writing pairs one after the other: a repeated key keeps its first position and
takes its last value. -/
def ofPairs (pairs : List (String × α)) : Fields α :=
  pairs.foldl (fun fs p => set p.1 p.2 fs) []

/-- No key occurs twice. -/
def Distinct (fs : Fields α) : Prop := fs.keys.Nodup

instance (fs : Fields α) : Decidable fs.Distinct := inferInstanceAs (Decidable fs.keys.Nodup)

/-! ## Reading what was written -/

@[simp] theorem get?_nil (k : String) : get? k ([] : Fields α) = none := rfl

theorem get?_set_self (k : String) (v : α) (fs : Fields α) : (fs.set k v).get? k = some v := by
  induction fs with
  | nil => simp [set, get?]
  | cons f fs ih => by_cases h : k = f.1 <;> simp [set, get?, h, ih]

theorem get?_set_of_ne {k l : String} (h : l ≠ k) (v : α) (fs : Fields α) :
    (fs.set k v).get? l = fs.get? l := by
  induction fs with
  | nil => simp [set, get?, h]
  | cons f fs ih =>
    by_cases hk : k = f.1
    · subst hk
      simp [set, get?, h]
    · simp [set, get?, hk, ih]

theorem has_iff_mem_keys {k : String} {fs : Fields α} : fs.has k = true ↔ k ∈ fs.keys := by
  induction fs with
  | nil => simp [has, keys]
  | cons f fs ih =>
    by_cases h : k = f.1
    · simp [has, keys, get?, h]
    · simpa [has, keys, get?, h] using ih

theorem keys_set (k : String) (v : α) (fs : Fields α) :
    (fs.set k v).keys = if k ∈ fs.keys then fs.keys else fs.keys ++ [k] := by
  induction fs with
  | nil => simp [set, keys]
  | cons f fs ih =>
    by_cases h : k = f.1
    · simp [set, keys, h]
    · simp only [keys] at ih
      by_cases hk : k ∈ fs.map Prod.fst <;> simp [set, keys, h, ih, hk]

theorem Distinct.set {fs : Fields α} (h : fs.Distinct) (k : String) (v : α) :
    (fs.set k v).Distinct := by
  rw [Distinct, keys_set]
  split
  · exact h
  · rename_i hk
    exact List.nodup_append.2 ⟨h, by simp, fun a ha b hb => by
      rintro rfl
      exact hk (by simpa using (List.mem_singleton.1 hb) ▸ ha)⟩

theorem distinct_ofPairs (pairs : List (String × α)) : (ofPairs pairs).Distinct := by
  suffices h : ∀ fs : Fields α, fs.Distinct →
      (pairs.foldl (fun fs p => set p.1 p.2 fs) fs).Distinct from h [] List.nodup_nil
  induction pairs with
  | nil => exact fun fs h => h
  | cons p pairs ih => exact fun fs h => ih _ (h.set p.1 p.2)

end Fields

end ConfigOverlay
