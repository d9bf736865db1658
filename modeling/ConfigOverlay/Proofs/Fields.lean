import ConfigOverlay.Tree.Fields
import Mathlib.Data.List.Forall2
import Mathlib.Data.List.Perm.Subperm

/-!
# Fields by key

Two lists of fields that hold no key twice stand for the same object exactly when every key has
related values in both. This file reads the operations on fields that way: a list of fields is
the partial function `get?`, and `Fields.Agree R` relates two lists key by key, whatever their
order.
-/

namespace ConfigOverlay

variable {α β γ : Type}

/-! ## Related lists -/

/-- Change the relation of two lists, knowing that the related items are members. -/
theorem forall₂_imp_mem {R S : α → β → Prop} {xs : List α} {ys : List β}
    (h : List.Forall₂ R xs ys) (hRS : ∀ x ∈ xs, ∀ y ∈ ys, R x y → S x y) :
    List.Forall₂ S xs ys := by
  induction h with
  | nil => exact .nil
  | cons hxy _ ih =>
    exact .cons (hRS _ (by simp) _ (by simp) hxy)
      (ih fun x hx y hy => hRS x (by simp [hx]) y (by simp [hy]))

theorem forall₂_comp_mem {R : α → β → Prop} {S : β → γ → Prop} {T : α → γ → Prop} {xs : List α}
    {ys : List β} {zs : List γ} (h : List.Forall₂ R xs ys) (h' : List.Forall₂ S ys zs)
    (hT : ∀ x ∈ xs, ∀ y ∈ ys, ∀ z ∈ zs, R x y → S y z → T x z) : List.Forall₂ T xs zs := by
  induction h generalizing zs with
  | nil =>
    cases h'
    exact .nil
  | cons hxy _ ih =>
    cases h' with
    | cons hyz h' =>
      exact .cons (hT _ (by simp) _ (by simp) _ (by simp) hxy hyz)
        (ih h' fun x hx y hy z hz => hT x (by simp [hx]) y (by simp [hy]) z (by simp [hz]))

namespace Fields

/-! ## The partial function of a list of fields -/

theorem get?_cons (k l : String) (v : α) (fs : Fields α) :
    get? k ((l, v) :: fs) = if k = l then some v else get? k fs := rfl

theorem get?_eq_none {k : String} {fs : Fields α} : get? k fs = none ↔ k ∉ fs.keys := by
  rw [← has_iff_mem_keys, has, Bool.not_eq_true, Option.isSome_eq_false_iff,
    Option.isNone_iff_eq_none]

theorem exists_get?_iff {k : String} {fs : Fields α} :
    (∃ v, get? k fs = some v) ↔ k ∈ fs.keys := by
  rw [← has_iff_mem_keys, has, Option.isSome_iff_exists]

theorem mem_keys_of_get? {k : String} {v : α} {fs : Fields α} (h : get? k fs = some v) :
    k ∈ fs.keys := exists_get?_iff.1 ⟨v, h⟩

theorem mem_of_get? {k : String} {v : α} {fs : Fields α} (h : get? k fs = some v) :
    (k, v) ∈ fs := by
  induction fs with
  | nil => simp at h
  | cons f fs ih =>
    obtain ⟨l, w⟩ := f
    by_cases hk : k = l
    · simp [get?_cons, hk] at h
      simp [hk, h]
    · simp only [get?_cons, hk, if_false] at h
      exact List.mem_cons_of_mem _ (ih h)

theorem mem_keys_of_mem {f : String × α} {fs : Fields α} (h : f ∈ fs) : f.1 ∈ fs.keys :=
  List.mem_map_of_mem h

theorem distinct_cons {f : String × α} {fs : Fields α} :
    Distinct (f :: fs) ↔ f.1 ∉ fs.keys ∧ fs.Distinct := List.nodup_cons

theorem Distinct.get?_of_mem {fs : Fields α} (h : fs.Distinct) {k : String} {v : α}
    (hm : (k, v) ∈ fs) : get? k fs = some v := by
  induction fs with
  | nil => simp at hm
  | cons f fs ih =>
    obtain ⟨l, w⟩ := f
    rw [distinct_cons] at h
    rcases List.mem_cons.1 hm with he | hr
    · cases he
      simp [get?_cons]
    · have hk : k ≠ l := by
        rintro rfl
        exact h.1 (mem_keys_of_mem (f := (k, v)) hr)
      rw [get?_cons, if_neg hk, ih h.2 hr]

theorem get?_append (k : String) (fs gs : Fields α) :
    get? k (fs ++ gs) = (get? k fs).or (get? k gs) := by
  induction fs with
  | nil => simp
  | cons f fs ih =>
    rw [List.cons_append, get?_cons, get?_cons]
    split_ifs <;> simp [ih]

theorem get?_filter (p : String → Bool) (k : String) (fs : Fields α) :
    get? k (fs.filter fun f => p f.1) = if p k then get? k fs else none := by
  induction fs with
  | nil => simp
  | cons f fs ih =>
    obtain ⟨l, w⟩ := f
    rw [List.filter_cons, get?_cons]
    by_cases hk : k = l
    · subst hk
      by_cases hl : p k <;> simp [hl, ih, get?_cons]
    · by_cases hl : p l <;> simp [hl, hk, ih, get?_cons]

theorem get?_map (f : String → α → β) (k : String) (fs : Fields α) :
    get? k (fs.map fun g => (g.1, f g.1 g.2)) = (get? k fs).map (f k) := by
  induction fs with
  | nil => simp
  | cons g fs ih =>
    rw [List.map_cons, get?_cons, get?_cons, ih]
    split_ifs with h <;> simp [h]

theorem get?_set (k l : String) (v : α) (fs : Fields α) :
    get? k (set l v fs) = if k = l then some v else get? k fs := by
  by_cases h : k = l
  · rw [if_pos h, h, get?_set_self]
  · rw [if_neg h, get?_set_of_ne h]

theorem keys_map (f : String → α → β) (fs : Fields α) :
    keys (fs.map fun g => (g.1, f g.1 g.2)) = fs.keys := by
  simp [keys, Function.comp_def]

theorem keys_filter (p : String → Bool) (fs : Fields α) :
    keys (fs.filter fun f => p f.1) = fs.keys.filter p := List.filter_map.symm

theorem not_has (k : String) (fs : Fields α) : (!fs.has k) = decide (k ∉ fs.keys) := by
  rw [Bool.eq_iff_iff, Bool.not_eq_true', ← Bool.not_eq_true, has_iff_mem_keys,
    decide_eq_true_eq]

/-! ## Keeping keys distinct -/

theorem Distinct.filter {fs : Fields α} (h : fs.Distinct) (p : String × α → Bool) :
    Distinct (fs.filter p) :=
  h.sublist (List.filter_sublist.map _)

theorem Distinct.append {fs gs : Fields α} (hf : fs.Distinct) (hg : gs.Distinct)
    (h : ∀ k ∈ fs.keys, k ∉ gs.keys) : Distinct (fs ++ gs) := by
  rw [Distinct, keys, List.map_append]
  exact List.nodup_append.2 ⟨hf, hg, fun a ha b hb e => h a ha (e ▸ hb)⟩

theorem set_of_not_mem {k : String} {fs : Fields α} (h : k ∉ fs.keys) (v : α) :
    set k v fs = fs ++ [(k, v)] := by
  induction fs with
  | nil => rfl
  | cons f fs ih =>
    simp only [keys, List.map_cons, List.mem_cons, not_or] at h
    rw [set, if_neg h.1, ih h.2, List.cons_append]

theorem set_set (k : String) (v w : α) (fs : Fields α) : set k v (set k w fs) = set k v fs := by
  induction fs with
  | nil => simp [set]
  | cons f fs ih =>
    obtain ⟨l, u⟩ := f
    by_cases h : k = l <;> simp [set, h, ih]

theorem exists_append_of_get? {k : String} {v : α} {fs : Fields α}
    (h : get? k fs = some v) : ∃ before after, fs = before ++ (k, v) :: after ∧
      ∀ w, set k w fs = before ++ (k, w) :: after := by
  induction fs with
  | nil => cases h
  | cons f fs ih =>
    obtain ⟨l, u⟩ := f
    rw [get?_cons] at h
    by_cases hk : k = l
    · subst hk
      rw [if_pos rfl, Option.some.injEq] at h
      subst h
      exact ⟨[], fs, rfl, fun w => by rw [set, if_pos rfl]; rfl⟩
    · rw [if_neg hk] at h
      obtain ⟨before, after, rfl, hset⟩ := ih h
      exact ⟨(l, u) :: before, after, rfl, fun w => by rw [set, if_neg hk, hset]; rfl⟩

theorem erase_of_not_mem {k : String} {fs : Fields α} (h : k ∉ fs.keys) : erase k fs = fs := by
  rw [erase, List.filter_eq_self]
  intro f hf
  simpa using fun heq : f.1 = k => h (heq ▸ mem_keys_of_mem hf)

/-- A key that is there stands between the fields of other keys, where it is written and removed. -/
theorem Distinct.exists_append_of_get? {k : String} {v : α} {fs : Fields α} (hd : fs.Distinct)
    (h : get? k fs = some v) :
    ∃ before after : Fields α, fs = before ++ (k, v) :: after ∧
      k ∉ before.keys ∧ k ∉ after.keys ∧
      (∀ w, fs.set k w = before ++ (k, w) :: after) ∧ fs.erase k = before ++ after := by
  obtain ⟨before, after, rfl, hset⟩ := Fields.exists_append_of_get? h
  have hkeys : (before.keys ++ k :: after.map Prod.fst).Nodup := by
    simpa [Distinct, keys] using hd
  obtain ⟨-, hk, hdisjoint⟩ := List.nodup_append.1 hkeys
  have hbefore : k ∉ before.keys := fun hmem => hdisjoint k hmem k List.mem_cons_self rfl
  have hafter : k ∉ Fields.keys after := (List.nodup_cons.1 hk).1
  refine ⟨before, after, rfl, hbefore, hafter, hset, ?_⟩
  have hb : erase k before = before := erase_of_not_mem hbefore
  have ha : erase k after = after := erase_of_not_mem hafter
  rw [erase] at ha hb ⊢
  rw [List.filter_append, List.filter_cons_of_neg (by simp), ha, hb]

/-- Writing new keys one after the other appends them, each with its value, when what is written
under a new key does not depend on the other fields. -/
theorem foldl_set_of_distinct {write : Fields α → String × α → α} {g : String × α → α}
    {pairs fs : Fields α} (hd : Distinct (fs ++ pairs))
    (h : ∀ gs, ∀ p ∈ pairs, p.1 ∉ keys gs → write gs p = g p) :
    pairs.foldl (fun gs p => set p.1 (write gs p) gs) fs = fs ++ pairs.map fun p => (p.1, g p) := by
  induction pairs generalizing fs with
  | nil => simp
  | cons p pairs ih =>
    have hp : p.1 ∉ fs.keys := by
      have := List.nodup_append.1 (by simpa only [Distinct, keys, List.map_append] using hd)
      exact fun hm => this.2.2 _ hm _ (by simp) rfl
    have hd' : Distinct (fs ++ [(p.1, g p)] ++ pairs) := by
      simpa [Distinct, keys, List.map_append] using hd
    rw [List.foldl_cons, h fs p (by simp) hp, set_of_not_mem hp,
      ih hd' fun gs q hq => h gs q (by simp [hq])]
    simp

theorem ofPairs_of_distinct {pairs : List (String × α)} (h : Distinct pairs) :
    ofPairs pairs = pairs :=
  calc ofPairs pairs = [] ++ pairs.map fun p => (p.1, p.2) :=
        foldl_set_of_distinct h fun _ _ _ _ => rfl
    _ = pairs := by simp

theorem forall_mem_set {P : α → Prop} {fs : Fields α} (h : ∀ f ∈ fs, P f.2) (k : String) {v : α}
    (hv : P v) : ∀ f ∈ set k v fs, P f.2 := by
  induction fs with
  | nil => simpa [set] using hv
  | cons g fs ih =>
    rw [List.forall_mem_cons] at h
    rw [set]
    split_ifs
    · exact List.forall_mem_cons.2 ⟨hv, h.2⟩
    · exact List.forall_mem_cons.2 ⟨h.1, ih h.2⟩

theorem eq_or_mem_of_mem_set {k : String} {v : α} {fs : Fields α} {f : String × α}
    (h : f ∈ set k v fs) : f = (k, v) ∨ f ∈ fs := by
  induction fs with
  | nil => exact .inl (List.mem_singleton.1 h)
  | cons g fs ih =>
    obtain ⟨l, w⟩ := g
    rw [set] at h
    split_ifs at h with hk
    · subst hk
      exact (List.mem_cons.1 h).imp_right (List.mem_cons_of_mem _)
    · rcases List.mem_cons.1 h with h | h
      · exact .inr (h ▸ List.mem_cons_self)
      · exact (ih h).imp_right (List.mem_cons_of_mem _)

/-- Lists with the same keys in the same order are equal when every key finds the same value. -/
theorem eq_of_keys_eq {fs gs : Fields α} (hd : fs.Distinct) (hk : fs.keys = gs.keys)
    (h : ∀ f ∈ fs, get? f.1 gs = some f.2) : fs = gs := by
  induction fs generalizing gs with
  | nil => exact (List.map_eq_nil_iff.1 hk.symm).symm
  | cons f fs ih =>
    cases gs with
    | nil => cases hk
    | cons g gs =>
      obtain ⟨k, v⟩ := f
      obtain ⟨l, w⟩ := g
      obtain ⟨rfl, hkeys⟩ : k = l ∧ keys fs = keys gs := List.cons_eq_cons.1 hk
      rw [distinct_cons] at hd
      rw [List.forall_mem_cons, get?_cons, if_pos rfl, Option.some.injEq] at h
      obtain ⟨rfl, h⟩ := h
      refine congrArg _ (ih hd.2 hkeys fun f hf => ?_)
      have hne : f.1 ≠ k := by
        rintro rfl
        exact hd.1 (mem_keys_of_mem (f := f) hf)
      rw [← h f hf, get?_cons, if_neg hne]

/-! ## Inserting in order -/

theorem mem_keys_insertSorted {k l : String} {v : α} {fs : Fields α} :
    l ∈ (fs.insertSorted k v).keys ↔ l = k ∨ l ∈ fs.keys := by
  induction fs with
  | nil => simp [insertSorted, keys]
  | cons f fs ih =>
    obtain ⟨l', w⟩ := f
    rw [insertSorted]
    split_ifs
    · simp [keys]
    · simp only [keys, List.map_cons, List.mem_cons] at ih ⊢
      rw [ih]
      exact or_left_comm

theorem get?_insertSorted {k : String} {fs : Fields α} (h : k ∉ fs.keys) (v : α) (l : String) :
    get? l (fs.insertSorted k v) = if l = k then some v else get? l fs := by
  induction fs with
  | nil => rfl
  | cons f fs ih =>
    obtain ⟨k', w⟩ := f
    have hk' : k ≠ k' := fun he => h (he ▸ List.mem_cons_self)
    have hfs : k ∉ keys fs := fun hmem => h (List.mem_cons_of_mem k' hmem)
    by_cases hlt : k < k'
    · rw [insertSorted, if_pos hlt, get?_cons]
    · rw [insertSorted, if_neg hlt, get?_cons, get?_cons, ih hfs]
      by_cases hl : l = k
      · rw [if_pos hl, if_pos hl, if_neg (hl ▸ hk')]
      · rw [if_neg hl, if_neg hl]

theorem pairwise_keys_insertSorted {k : String} {fs : Fields α} (h : k ∉ fs.keys)
    (hfs : fs.keys.Pairwise (· < ·)) (v : α) : (fs.insertSorted k v).keys.Pairwise (· < ·) := by
  induction fs with
  | nil => exact List.pairwise_singleton _ _
  | cons f fs ih =>
    obtain ⟨k', w⟩ := f
    obtain ⟨hk', hrest⟩ := List.pairwise_cons.1 hfs
    rw [insertSorted]
    split_ifs with hlt
    · refine List.pairwise_cons.2 ⟨fun l hl => ?_, hfs⟩
      rcases List.mem_cons.1 hl with rfl | hl
      · exact hlt
      · exact String.lt_trans hlt (hk' l hl)
    · have hne : k ≠ k' := fun he => h (he ▸ List.mem_cons_self)
      have hgt : k' < k := by
        by_contra hge
        exact hne (String.le_antisymm (String.not_lt.1 hge) (String.not_lt.1 hlt))
      have hk : k ∉ keys fs := fun hmem => h (List.mem_cons_of_mem k' hmem)
      refine List.pairwise_cons.2 ⟨fun l hl => ?_, ih hk hrest⟩
      rcases mem_keys_insertSorted.1 hl with rfl | hl
      · exact hgt
      · exact hk' l hl

/-! ## Agreement -/

/-- Every key has related values in both lists, or a value in neither. -/
def Agree (R : α → β → Prop) (fs : Fields α) (gs : Fields β) : Prop :=
  ∀ k, Option.Rel R (get? k fs) (get? k gs)

theorem Agree.mono {R S : α → β → Prop} {fs : Fields α} {gs : Fields β} (h : Agree R fs gs)
    (hRS : ∀ k a b, get? k fs = some a → get? k gs = some b → R a b → S a b) :
    Agree S fs gs := by
  intro k
  have hk := h k
  generalize hf : get? k fs = x at hk ⊢
  generalize hg : get? k gs = y at hk ⊢
  cases hk with
  | some hR => exact .some (hRS k _ _ hf hg hR)
  | none => exact .none

theorem Agree.mem_keys_iff {R : α → β → Prop} {fs : Fields α} {gs : Fields β} (h : Agree R fs gs)
    (k : String) : k ∈ fs.keys ↔ k ∈ gs.keys := by
  rw [← not_iff_not, ← get?_eq_none, ← get?_eq_none]
  have hk := h k
  cases hf : get? k fs <;> cases hg : get? k gs <;> simp_all

theorem Agree.length_eq {R : α → β → Prop} {fs : Fields α} {gs : Fields β} (h : Agree R fs gs)
    (hf : fs.Distinct) (hg : gs.Distinct) : fs.length = gs.length := by
  have hp : fs.keys.Perm gs.keys := (List.perm_ext_iff_of_nodup hf hg).2 h.mem_keys_iff
  simpa [keys] using hp.length_eq

theorem Agree.nil_iff {R : α → β → Prop} {fs : Fields α} :
    Agree R fs ([] : Fields β) ↔ fs = [] := by
  refine ⟨fun h => ?_, fun h => h ▸ fun _ => .none⟩
  cases fs with
  | nil => rfl
  | cons f fs =>
    obtain ⟨k, v⟩ := f
    have hk := h k
    simp [get?_cons] at hk

theorem Agree.refl {R : α → α → Prop} {fs : Fields α}
    (h : ∀ k v, get? k fs = some v → R v v) : Agree R fs fs := by
  intro k
  cases hk : get? k fs with
  | none => exact .none
  | some v => exact .some (h k v hk)

theorem Agree.symm {R : α → β → Prop} {S : β → α → Prop} {fs : Fields α} {gs : Fields β}
    (h : Agree R fs gs) (hRS : ∀ k a b, get? k fs = some a → get? k gs = some b → R a b → S b a) :
    Agree S gs fs := by
  intro k
  have hk := h k
  generalize hf : get? k fs = x at hk ⊢
  generalize hg : get? k gs = y at hk ⊢
  cases hk with
  | some hR => exact .some (hRS k _ _ hf hg hR)
  | none => exact .none

theorem Agree.trans {R : α → β → Prop} {S : β → γ → Prop} {T : α → γ → Prop} {fs : Fields α}
    {gs : Fields β} {hs : Fields γ} (h : Agree R fs gs) (h' : Agree S gs hs)
    (hT : ∀ k a b c, get? k fs = some a → get? k gs = some b → get? k hs = some c →
      R a b → S b c → T a c) : Agree T fs hs := by
  intro k
  have hk := h k
  have hk' := h' k
  generalize hf : get? k fs = x at hk ⊢
  generalize hg : get? k gs = y at hk hk'
  generalize hh : get? k hs = z at hk' ⊢
  cases hk with
  | some hR =>
    cases hk' with
    | some hS => exact .some (hT k _ _ _ hf hg hh hR hS)
  | none =>
    cases hk'
    exact .none

theorem Agree.set {R : α → β → Prop} {fs : Fields α} {gs : Fields β} (h : Agree R fs gs)
    (k : String) {a : α} {b : β} (hab : R a b) : Agree R (set k a fs) (set k b gs) := by
  intro l
  rw [get?_set, get?_set]
  split_ifs
  · exact .some hab
  · exact h l

end Fields

end ConfigOverlay
