import ConfigOverlay.Demo.Run
import ConfigOverlay.Proofs.Defaulted
import ConfigOverlay.Proofs.Minimal
import ConfigOverlay.Proofs.Patch
import ConfigOverlay.Proofs.Render

/-!
# Explanations are sound and minimal

**Theorem (`Demo.explain_minimal`).** The arguments that explain a loaded configuration lead to it
from the defaults, and none of them can be left out.

What is loaded is complete, and so are the defaults, so the two have the same settings in the same
order. Their diff follows the sections: a value that changed is a leaf, which is written as a whole
at its path, and a section that changed is patched (`Section.Defaulted.explains`). So every value
that is written differs from the default at its path, and none of the paths leads to another.

Loading what was rendered comes down to writing it over the defaults: a value that its setting
takes can be written before the defaults are filled in or after (`Section.Sets.fill_assign`). This
holds of any part of the arguments as well, so to load without one of them is to write all values
but one, and at its path the default stays.
-/

namespace ConfigOverlay

open Outcome ConfigOverlay.Tree

/-! ## Leaves as arguments -/

namespace Tree

variable {t u : Tree}

theorem Scalar.integral (h : Scalar t) : t.integral = true := by
  cases h <;> rfl

theorem Scalar.depth_eq (h : Scalar t) : t.depth = 0 := by
  cases h <;> rfl

theorem Leaf.readable (h : Leaf t) : t.Readable := by
  refine ⟨h.plain, ?_⟩
  cases h with
  | scalar h => exact h.integral
  | array h => exact integral_array.2 fun x hx => (h x hx).integral

theorem Leaf.depth_le (h : Leaf t) : t.depth ≤ 1 := by
  cases h with
  | scalar h => rw [h.depth_eq]; exact Nat.zero_le 1
  | array h => exact depth_array_le.2 fun x hx => Nat.le_of_eq (h x hx).depth_eq

variable {d : Nat}

theorem Leaf.not_patches (ht : Leaf t) (hne : t.same u = false) :
    ¬ Patches .sequenceIfDifferent d t u := by
  intro h
  cases h with
  | object hd hp hkeys ho => exact ht.ne_object _ rfl
  | array hd hp hlen ho => simp [Policy.sequenceIfDifferent, hne] at hp

theorem Leaf.branches_diffAt (ht : Leaf t) (hu : Leaf u) (hne : t.same u = false) :
    branches (diffAt .sequenceIfDifferent d t u) = [([], u)] := by
  have hunwrap := Replay.unwrap_diffAt hu.plain.atomFree (ht.not_patches (d := d) hne)
  cases hs : (diffAt .sequenceIfDifferent d t u).splits with
  | false => rw [branches_of_not_splits hs, hunwrap]
  | true =>
    rw [Replay.unwrap_of_splits hs] at hunwrap
    rw [hunwrap] at hs
    cases u with
    | object gs => exact absurd rfl (hu.ne_object gs)
    | _ => cases hs

end Tree

namespace Schema

/-! ## The settings of a complete configuration -/

/-- A value that a setting has in a complete configuration. -/
def Setting.Complete : Setting → Tree → Prop
  | .value _ shape _, t => shape.bind t = .ok t
  | .nested _ sec, t => sec.Complete t

namespace Section.Complete

variable {type : String} {settings : List Setting} {c : Tree} {fs : Fields Tree} {s : Setting}
  (h : (Section.mk type settings).Defaulted)

include h

theorem fill_child (hc : (Section.mk type settings).Complete c) (hs : s ∈ settings) :
    s.fill (child s.name c) = child s.name c := by
  have hchild : child s.name ((Section.mk type settings).fill c) = s.fill (child s.name c) :=
    child_fill h.nodup_names c hs
  rw [hc.filled] at hchild
  exact hchild.symm

/-- A complete configuration has its settings in declaration order and nothing else. -/
theorem eq_object (hc : (Section.mk type settings).Complete c) :
    c = .object (settings.map fun s => (s.name, child s.name c)) := by
  calc
    c = .object (settings.map fun s => (s.name, s.fill (child s.name c))) := by
      rw [← fillSettings_eq_map]
      exact hc.filled.symm
    _ = .object (settings.map fun s => (s.name, child s.name c)) := by
      congr 1
      refine List.map_congr_left fun s hs => ?_
      rw [hc.fill_child h hs]

theorem keys_eq (hc : (Section.mk type settings).Complete (.object fs)) :
    fs.keys = settings.map Setting.name := by
  have heq := hc.eq_object h
  injection heq with heq
  rw [heq, keys_map_settings]

theorem get?_eq (hc : (Section.mk type settings).Complete (.object fs)) (hs : s ∈ settings) :
    Fields.get? s.name fs = some (child s.name (.object fs)) := by
  have heq := hc.eq_object h
  injection heq with heq
  have hget := get?_map_settings h.nodup_names (fun s => child s.name (.object fs)) hs
  rwa [← heq] at hget

theorem exists_setting_of_mem (hc : (Section.mk type settings).Complete (.object fs))
    {f : String × Tree} (hf : f ∈ fs) :
    ∃ s ∈ settings, f = (s.name, child s.name (.object fs)) := by
  have heq := hc.eq_object h
  injection heq with heq
  rw [heq] at hf
  obtain ⟨s, hs, rfl⟩ := List.mem_map.1 hf
  exact ⟨s, hs, rfl⟩

theorem setting (hc : (Section.mk type settings).Complete c) (hs : s ∈ settings) :
    s.Complete (child s.name c) := by
  have hfill := hc.fill_child h hs
  have htakes := child_takes h.nodup_names (.inl hc.takes) hs
  -- A value that is `null` would have been filled in.
  cases s with
  | value name shape presence =>
    obtain ⟨d, rfl, hd⟩ := h.exists_default hs
    have hne : child name c ≠ .null := by
      intro hnull
      apply (bind_leaf (h.isLeaf hs) hd).2.ne_null
      rwa [Setting.name, hnull] at hfill
    exact (htakes.resolve_right hne).resolve_left hne
  | nested name sec =>
    refine ⟨htakes.resolve_right ?_, hfill⟩
    intro hnull
    rw [hnull] at hfill
    cases sec with
    | mk type settings =>
      rw [Setting.fill, Section.fill] at hfill
      cases hfill

theorem setting_eq_of_same {x y : Tree} (hx : (Section.mk type settings).Complete x)
    (hy : (Section.mk type settings).Complete y)
    (hsec : ∀ name sec, Setting.nested name sec ∈ settings → ∀ {x y : Tree}, sec.Complete x →
      sec.Complete y → x.same y = true → x = y) (hs : s ∈ settings)
    (hsame : (child s.name x).same (child s.name y) = true) :
    child s.name x = child s.name y := by
  have hxs := hx.setting h hs
  have hys := hy.setting h hs
  cases s with
  | value name shape presence =>
    exact (bind_leaf (h.isLeaf hs) hxs).2.eq_of_same (bind_leaf (h.isLeaf hs) hys).2 hsame
  | nested name sec => exact hsec name sec hs hxs hys hsame

end Section.Complete

/-- Equal complete configurations are the same, with the same order of keys. -/
theorem Section.Defaulted.eq_of_same {sec : Section} (h : sec.Defaulted) {x y : Tree}
    (hx : sec.Complete x) (hy : sec.Complete y) (hxy : x.same y = true) : x = y := by
  induction sec using Section.structural generalizing x y with
  | mk type settings ih =>
    have hwx := (h.plain_of_takes hx.takes).wellFormed
    have hwy := (h.plain_of_takes hy.takes).wellFormed
    rw [hx.eq_object h, hy.eq_object h]
    congr 1
    refine List.map_congr_left fun s hs => congrArg _ ?_
    refine hx.setting_eq_of_same h hy (fun name sec hs => ?_) hs (child_same hwx hwy hxy s.name)
    exact ih name sec hs (h.of_nested hs)

/-! ## Values at paths -/

/-- A setting of the section, or of one below it, has the path and binds the value as it is. -/
inductive Section.Sets : Section → KeyPath → Tree → Prop
  | value {type : String} {settings : List Setting} {name : String} {shape : Shape}
    {presence : Presence} {v : Tree} (hs : Setting.value name shape presence ∈ settings)
    (hv : shape.bind v = .ok v) : Sets (.mk type settings) [name] v
  | nested {type : String} {settings : List Setting} {name : String} {sec : Section}
    {path : KeyPath} {v : Tree} (hs : Setting.nested name sec ∈ settings) (hv : sec.Sets path v) :
    Sets (.mk type settings) (name :: path) v

/-- The same below a single setting. -/
def Setting.Sets : Setting → KeyPath → Tree → Prop
  | .value _ shape _, path, v => path = [] ∧ shape.bind v = .ok v
  | .nested _ sec, path, v => sec.Sets path v

theorem Setting.Sets.section {s : Setting} {path : KeyPath} {v : Tree} (h : s.Sets path v)
    {type : String} {settings : List Setting} (hs : s ∈ settings) :
    (Section.mk type settings).Sets (s.name :: path) v := by
  cases s with
  | value name shape presence =>
    obtain ⟨rfl, hv⟩ := h
    exact .value hs hv
  | nested name sec => exact .nested hs h

section

variable {type : String} {settings : List Setting} {s : Setting} {t : Tree}

theorem takes_set (hs : s ∈ settings) (ht : (Section.mk type settings).Takes t ∨ t = .null)
    {v : Tree} (hv : s.Takes v) :
    (Section.mk type settings).Takes (.object (Fields.set s.name v t.fieldsOrEmpty)) := by
  have hfs : t.fieldsOrEmpty.Distinct ∧
      ∀ f ∈ t.fieldsOrEmpty, ∃ s ∈ settings, s.name = f.1 ∧ s.Takes f.2 := by
    rcases ht with ht | rfl
    · obtain ⟨fs, rfl⟩ := ht.exists_object
      exact takes_object.1 ht
    · exact ⟨List.nodup_nil, by simp⟩
  refine takes_object.2 ⟨hfs.1.set _ _, fun f hf => ?_⟩
  rcases Fields.eq_or_mem_of_mem_set hf with rfl | hf
  · exact ⟨s, hs, rfl, hv⟩
  · exact hfs.2 f hf

/-- Writing one setting and filling in defaults commute. -/
theorem fill_set (hnames : (settings.map Setting.name).Nodup) (hs : s ∈ settings) (v : Tree) :
    (Section.mk type settings).fill (.object (Fields.set s.name v t.fieldsOrEmpty)) =
      .object (Fields.set s.name (s.fill v) ((Section.mk type settings).fill t).fieldsOrEmpty) := by
  rw [Section.fill, Section.fill, fillSettings_eq_map, fillSettings_eq_map, fieldsOrEmpty_object]
  congr 1
  apply Fields.eq_of_keys_eq (distinct_map_settings hnames _)
  · rw [Fields.keys_set, keys_map_settings, keys_map_settings, if_pos (List.mem_map_of_mem hs)]
  · simp only [List.forall_mem_map]
    intro s' hs'
    rw [child, fieldsOrEmpty_object]
    by_cases hname : s'.name = s.name
    · cases List.inj_on_of_nodup_map hnames hs' hs hname
      rw [Fields.get?_set_self, Fields.get?_set_self, Option.getD_some]
    · rw [Fields.get?_set_of_ne hname, Fields.get?_set_of_ne hname, ← child]
      exact get?_map_settings hnames (fun s => s.fill (child s.name t)) hs'

end

namespace Section.Sets

variable {sec : Section} {path : KeyPath} {v : Tree}

theorem assignable (h : sec.Sets path v) (hd : sec.Defaulted) :
    Assignable (path, v) ∧ v.depth ≤ Json.maxNesting := by
  induction h with
  | @value type settings name shape presence v hs hv =>
    have hleaf := (bind_leaf (hd.isLeaf hs) hv).2
    have hkey := hd.isAddressable_name hs
    rw [Setting.name] at hkey
    refine ⟨⟨by simp, ?_, hleaf.readable⟩, Nat.le_trans hleaf.depth_le (by decide)⟩
    simpa [KeyPath.Addressable] using hkey
  | @nested type settings name sec path v hs hv ih =>
    have hkey := hd.isAddressable_name hs
    rw [Setting.name] at hkey
    obtain ⟨⟨-, hpath, hread⟩, hdepth⟩ := ih (hd.of_nested hs)
    exact ⟨⟨by simp, List.forall_mem_cons.2 ⟨hkey, hpath⟩, hread⟩, hdepth⟩

theorem takes_assign (h : sec.Sets path v) (hd : sec.Defaulted) {t : Tree}
    (ht : sec.Takes t ∨ t = .null) : sec.Takes (assign path v t) := by
  induction h generalizing t with
  | @value type settings name shape presence v hs hv => exact takes_set hs ht (.inr hv)
  | @nested type settings name sec path v hs hv ih =>
    have hchild := child_takes hd.nodup_names ht hs
    exact takes_set hs ht (ih (hd.of_nested hs) hchild)

/-- **Writing the value and filling in defaults commute.** -/
theorem fill_assign (h : sec.Sets path v) (hd : sec.Defaulted) (t : Tree) :
    sec.fill (assign path v t) = assign path v (sec.fill t) := by
  induction h generalizing t with
  | @value type settings name shape presence v hs hv =>
    have hne := (bind_leaf (hd.isLeaf hs) hv).2.ne_null
    rw [assign_cons, assign_cons, assign_nil, assign_nil]
    refine (fill_set hd.nodup_names hs v).trans ?_
    rw [Setting.fill, Presence.orDefault_of_ne_null hne, Setting.name]
  | @nested type settings name sec path v hs hv ih =>
    have hchild : child name ((Section.mk type settings).fill t) = sec.fill (child name t) :=
      child_fill hd.nodup_names t hs
    rw [assign_cons, assign_cons, hchild, ← ih (hd.of_nested hs)]
    exact fill_set hd.nodup_names hs (assign path v (child name t))

end Section.Sets

/-! ## Diffs of complete configurations -/

/-- What a diff does for one setting that changes: it sets values below the setting that are not
there yet, and writing them makes the change. -/
structure Setting.Explains (s : Setting) (o x y : Tree) : Prop where
  sets : ∀ e ∈ branches o, s.Sets e.1 e.2 ∧ descend e.1 x ≠ e.2
  writes : imprint o x = y

/-- What a diff does for a section. -/
structure Section.Explains (sec : Section) (os : Fields Tree) (x y : Tree) : Prop where
  addressable : ∀ k ∈ os.keys, isAddressable k = true
  sets : ∀ e ∈ decode (object os), sec.Sets e.1 e.2 ∧ descend e.1 x ≠ e.2
  writes : assignAll (decode (object os)) x = y

theorem Section.Explains.setting {sec : Section} {os : Fields Tree} {x y : Tree}
    (h : sec.Explains os x y) (hne : x ≠ y) (name : String) :
    (Setting.nested name sec).Explains (.object os) x y := by
  have hnil : os ≠ [] := by
    rintro rfl
    exact hne h.writes
  have hsplits : (object os).splits = true := splits_object.2 ⟨hnil, h.addressable⟩
  have hbranches : branches (object os) = decode (object os) := by
    rw [branches, if_pos hsplits]
  refine ⟨?_, ?_⟩
  · rw [hbranches]
    exact h.sets
  · rw [imprint, hbranches]
    exact h.writes

/-- A value that changes is explained by the new value. -/
theorem Setting.explains_value {shape : Shape} (hleaf : shape.isLeaf = true) {x y : Tree}
    (hx : shape.bind x = .ok x) (hy : shape.bind y = .ok y) (hne : x.same y = false) (d : Nat)
    (name : String) (presence : Presence) :
    (Setting.value name shape presence).Explains (diffAt .sequenceIfDifferent d x y) x y := by
  have hly := (bind_leaf hleaf hy).2
  have hbranches := (bind_leaf hleaf hx).2.branches_diffAt (d := d) hly hne
  refine ⟨?_, ?_⟩
  · rw [hbranches, List.forall_mem_singleton]
    refine ⟨⟨rfl, hy⟩, fun hxy : x = y => ?_⟩
    rw [hxy, same_refl hly.plain.wellFormed] at hne
    cases hne
  · rw [imprint, hbranches]
    rfl

section

variable {type : String} {settings : List Setting} {fs gs : Fields Tree} {d : Nat}
  (h : (Section.mk type settings).Defaulted) (hx : (Section.mk type settings).Complete (.object fs))
  (hy : (Section.mk type settings).Complete (.object gs))
  (hchanged : ∀ s ∈ settings, (child s.name (.object fs)).same (child s.name (.object gs)) = false →
    s.Explains (diffAt .sequenceIfDifferent d (child s.name (.object fs))
      (child s.name (.object gs))) (child s.name (.object fs)) (child s.name (.object gs)))

include h hx hy hchanged

theorem explains_of_mem_overlayFields :
    ∀ f ∈ overlayFields .sequenceIfDifferent d fs gs, ∃ s ∈ settings, s.name = f.1 ∧
      s.Explains f.2 (child s.name (.object fs)) (child s.name (.object gs)) := by
  have hdf : Fields.Distinct fs := (takes_object.1 hx.takes).1
  have hdg : Fields.Distinct gs := (takes_object.1 hy.takes).1
  rintro ⟨k, o⟩ hf
  obtain ⟨y, hgy, hcases⟩ := exists_of_mem_overlayFields hdf hdg hf
  obtain ⟨s, hs, hfield⟩ := hy.exists_setting_of_mem h (Fields.mem_of_get? hgy)
  obtain ⟨rfl, rfl⟩ := Prod.mk.inj hfield
  rw [hx.get?_eq h hs] at hcases
  rcases hcases with ⟨hnone, -⟩ | ⟨x, hfx, hne, rfl⟩
  · cases hnone
  · cases hfx
    exact ⟨s, hs, rfl, hchanged s hs hne⟩

/-- Writing a patch gives the other configuration. -/
theorem imprintFields_overlayFields :
    imprintFields (overlayFields .sequenceIfDifferent d fs gs) fs = gs := by
  have hdf : Fields.Distinct fs := (takes_object.1 hx.takes).1
  have hdg : Fields.Distinct gs := (takes_object.1 hy.takes).1
  have hdo := distinct_overlayFields (p := .sequenceIfDifferent) (d := d) hdf hdg
  have hkeys : ∀ f ∈ overlayFields .sequenceIfDifferent d fs gs, f.1 ∈ fs.keys := by
    intro f hf
    obtain ⟨s, hs, hname, -⟩ := explains_of_mem_overlayFields h hx hy hchanged f hf
    rw [hx.keys_eq h, ← hname]
    exact List.mem_map_of_mem hs
  symm
  apply Fields.eq_of_keys_eq hdg
  · rw [keys_imprintFields hkeys, hx.keys_eq h, hy.keys_eq h]
  · intro f hf
    obtain ⟨s, hs, rfl⟩ := hy.exists_setting_of_mem h hf
    rw [get?_imprintFields hdo, get?_overlayFields hdf, hx.get?_eq h hs, hy.get?_eq h hs,
      Option.bind_some, Option.elim_some]
    cases hsame : (child s.name (.object fs)).same (child s.name (.object gs)) with
    | true =>
      have hkept := hx.setting_eq_of_same h hy (fun _ _ hs => (h.of_nested hs).eq_of_same) hs hsame
      simp [hkept]
    | false => simp [(hchanged s hs hsame).writes]

/-- A section is explained when the settings that change are. -/
theorem explains_of_settings :
    (Section.mk type settings).Explains (overlayFields .sequenceIfDifferent d fs gs) (.object fs)
      (.object gs) := by
  have hmem := explains_of_mem_overlayFields h hx hy hchanged
  have haddressable : ∀ k ∈ Fields.keys (overlayFields .sequenceIfDifferent d fs gs),
      isAddressable k = true := by
    intro k hk
    obtain ⟨f, hf, rfl⟩ := List.mem_map.1 hk
    obtain ⟨s, hs, hname, -⟩ := hmem f hf
    rw [← hname]
    exact h.isAddressable_name hs
  refine ⟨haddressable, ?_, ?_⟩
  · rw [decode_object haddressable, forall_mem_fieldBranches]
    intro f hf e he
    obtain ⟨s, hs, hname, hexplains⟩ := hmem f hf
    obtain ⟨hsets, hne⟩ := hexplains.sets e he
    rw [← hname]
    exact ⟨hsets.section hs, hne⟩
  · rw [decode_object haddressable, assignAll_fieldBranches,
      imprintFields_overlayFields h hx hy hchanged]

end

/-- **The diff of two complete configurations explains the change.** -/
theorem Section.Defaulted.explains {sec : Section} (h : sec.Defaulted) {x y : Tree}
    (hx : sec.Complete x) (hy : sec.Complete y) {d : Nat} (hd : d + x.depth ≤ maxDepth) :
    ∃ os, diffAt .sequenceIfDifferent d x y = .object os ∧ sec.Explains os x y := by
  induction sec using Section.structural generalizing x y d with
  | mk type settings ih =>
    obtain ⟨fs, rfl⟩ := hx.takes.exists_object
    obtain ⟨gs, rfl⟩ := hy.takes.exists_object
    have hpatches : Patches .sequenceIfDifferent d (.object fs) (.object gs) := by
      refine .object ?_ rfl (fun k hk => ?_) rfl
      · rw [depth] at hd
        omega
      · rwa [hy.keys_eq h, ← hx.keys_eq h]
    refine ⟨_, diffAt_object hpatches, explains_of_settings h hx hy fun s hs hne => ?_⟩
    have hxs := hx.setting h hs
    have hys := hy.setting h hs
    have hdepth := depth_child_lt s.name fs
    cases s with
    | value name shape presence =>
      exact Setting.explains_value (h.isLeaf hs) hxs hys hne (d + 1) name presence
    | nested name sec =>
      have hsec := h.of_nested hs
      obtain ⟨os, hos, hexplains⟩ := ih name sec hs hsec hxs hys (d := d + 1) (by omega)
      rw [hos]
      refine hexplains.setting (fun hxy => ?_) name
      rw [hxy, same_refl (hsec.plain_of_takes hys.takes).wellFormed] at hne
      cases hne

/-! ## Loading explanations -/

namespace Section.Defaulted

variable {σ : Type} {sec : Section} {es : List (KeyPath × Tree)}

theorem takes_assignAll (h : sec.Defaulted) (hes : ∀ e ∈ es, sec.Sets e.1 e.2) {t : Tree}
    (ht : sec.Takes t) : sec.Takes (assignAll es t) := by
  induction es generalizing t with
  | nil => exact ht
  | cons e es ih =>
    rw [List.forall_mem_cons] at hes
    exact ih hes.2 (hes.1.takes_assign h (.inl ht))

theorem fill_assignAll (h : sec.Defaulted) (hes : ∀ e ∈ es, sec.Sets e.1 e.2) (t : Tree) :
    sec.fill (assignAll es t) = assignAll es (sec.fill t) := by
  induction es generalizing t with
  | nil => rfl
  | cons e es ih =>
    rw [List.forall_mem_cons] at hes
    rw [assignAll_cons, ih hes.2, hes.1.fill_assign h, assignAll_cons]

/-- **Rendered values are loaded over the defaults**, one after the other. -/
theorem load_rendered (h : sec.Defaulted) (hes : ∀ e ∈ es, sec.Sets e.1 e.2)
    (sources : Sources σ) (mode : WholeTreeMode) (strict : Bool) (s : σ) :
    load sources mode strict sec.target (es.map rendered) s =
      (.ok (assignAll es (sec.fill .empty)), s) := by
  have hcompile : compile sources mode (es.map rendered) s = (.ok (assignAll es .empty), s) := by
    have hrun := compileFrom_rendered sources mode (es.map rendered)
      (fun e he => ((hes e he).assignable h).1) (fun e he => ((hes e he).assignable h).2) [] 0
      .empty s
    rw [List.append_nil] at hrun
    exact hrun
  have hbind : sec.target.bind strict (assignAll es .empty) =
      .ok (assignAll es (sec.fill .empty)) := by
    rw [h.bind_eq (h.takes_assignAll hes (takes_empty sec)), h.fill_assignAll hes]
  rw [load, Action.bind_of_ok hcompile, hbind]
  rfl

/-- **The diff from the defaults to a complete configuration is rendered**, and none of the values
that it writes can be left out. -/
theorem exists_minimal (h : sec.Defaulted) (hd : (sec.fill .empty).depth ≤ maxDepth) {c : Tree}
    (hc : sec.Complete c) :
    ∃ es, (diffWith .sequenceIfDifferent (sec.fill .empty) c).toArguments = .ok (es.map rendered) ∧
      (∀ e ∈ es, sec.Sets e.1 e.2) ∧ Minimal es (sec.fill .empty) c := by
  have hdefaults : sec.Complete (sec.fill .empty) :=
    ⟨h.takes_fill (.inl (takes_empty sec)), h.fill_fill .empty⟩
  obtain ⟨os, hos, hexplains⟩ := h.explains hdefaults hc (d := 0) (by omega)
  have hwf : (object os).WellFormed := by
    rw [← hos]
    exact (h.plain_of_takes hdefaults.takes).wellFormed.diffAt
      (h.plain_of_takes hc.takes).wellFormed 0
  refine ⟨decode (object os), ?_, fun e he => (hexplains.sets e he).1, hexplains.writes,
    apart_decode hwf hexplains.addressable, fun e he => (hexplains.sets e he).2⟩
  rw [diffWith, hos, toArguments_object hexplains.addressable]

end Section.Defaulted

end Schema

namespace Demo

open Schema

theorem server_defaulted : server.Defaulted := by
  refine .mk (by decide) (by decide) ?_ ?_
  · intro name shape presence h
    simp only [List.mem_cons, Setting.value.injEq, List.not_mem_nil, or_false] at h
    rcases h with ⟨rfl, rfl, rfl⟩ | ⟨rfl, rfl, rfl⟩ | ⟨rfl, rfl, rfl⟩ <;> exact ⟨rfl, _, rfl, rfl⟩
  · simp

theorem display_defaulted : display.Defaulted := by
  refine .mk (by decide) (by decide) ?_ ?_
  · intro name shape presence h
    simp only [List.mem_cons, Setting.value.injEq, List.not_mem_nil, or_false] at h
    rcases h with ⟨rfl, rfl, rfl⟩ | ⟨rfl, rfl, rfl⟩ <;> exact ⟨rfl, _, rfl, rfl⟩
  · simp

theorem config_defaulted : config.Defaulted := by
  refine .mk (by decide) (by decide) ?_ ?_
  · intro name shape presence h
    simp only [List.mem_cons, Setting.value.injEq, List.not_mem_nil, or_false, reduceCtorEq] at h
    rcases h with ⟨rfl, rfl, rfl⟩ | ⟨rfl, rfl, rfl⟩ | ⟨rfl, rfl, rfl⟩ <;> exact ⟨rfl, _, rfl, rfl⟩
  · intro name sec h
    simp only [List.mem_cons, Setting.nested.injEq, List.not_mem_nil, or_false, reduceCtorEq,
      false_or] at h
    rcases h with ⟨rfl, rfl⟩ | ⟨rfl, rfl⟩
    · exact server_defaulted
    · exact display_defaulted

/-- What the demo loads is complete. -/
theorem complete_of_loadConfig {mode : WholeTreeMode} {args : List String} {c : Tree}
    {w w' : World} (h : loadConfig mode args w = (.ok c, w')) : config.Complete c := by
  have houtcome := congrArg Prod.fst h
  rw [loadConfig, load, Action.outcome_bind_ofExcept] at houtcome
  obtain ⟨t, -, hbind⟩ := bind_eq_ok.1 houtcome
  exact config_defaulted.complete_of_bind hbind

/-- **Explanations are sound and minimal.** When the demo loads a configuration, it explains it,
and the same arguments are what it shows for words that ask for an explanation. Loaded in the same
mode, they give the configuration back. There are none exactly when no arguments give it, and
without any one of them another configuration is loaded. All of this holds in every world, since
the arguments ask for nothing in it. -/
theorem explain_minimal {mode : WholeTreeMode} {args : List String} {c : Tree} {w w' : World}
    (hload : loadConfig mode args w = (.ok c, w')) :
    ∃ out,
      (∀ words, Demo.mode words = mode → overlayArguments words = .ok args →
        words.has "explain" = true → shown words w = (.ok out, w')) ∧
      ∀ w₁, explain mode c w₁ = (.ok out, w₁) ∧ loadConfig mode out w₁ = (.ok c, w₁) ∧
        (out = [] ↔ loadConfig mode [] w₁ = (.ok c, w₁)) ∧
        ∀ i < out.length, ∃ c', loadConfig mode (out.eraseIdx i) w₁ = (.ok c', w₁) ∧ c' ≠ c := by
  have hcomplete := complete_of_loadConfig hload
  obtain ⟨es, hargs, hsets, hminimal⟩ :=
    config_defaulted.exists_minimal (by decide) hcomplete
  have hrendered : ∀ es' : List (KeyPath × Tree), (∀ e ∈ es', e ∈ es) → ∀ w₁,
      loadConfig mode (es'.map rendered) w₁ = (.ok (assignAll es' (config.fill .empty)), w₁) :=
    fun es' hes' => config_defaulted.load_rendered (fun e he => hsets e (hes' e he)) World.sources
      mode true
  have hdefaults : ∀ w₁, loadConfig mode [] w₁ = (.ok (config.fill .empty), w₁) :=
    hrendered [] (by simp)
  have hexplain : ∀ w₁, explain mode c w₁ = (.ok (es.map rendered), w₁) := by
    intro w₁
    rw [explain, Action.bind_of_ok (hdefaults w₁), hargs]
    rfl
  refine ⟨es.map rendered, ?_, fun w₁ => ⟨hexplain w₁, ?_, ?_, ?_⟩⟩
  · rintro words rfl hwords hasks
    rw [shown, hwords, Action.ofExcept_ok_bind, Action.bind_of_ok hload, if_pos hasks]
    exact hexplain w'
  · rw [hrendered es (fun e he => he), hminimal.reaches]
  · rw [hdefaults, List.map_eq_nil_iff, hminimal.eq_nil_iff, Prod.mk.injEq, Except.ok.injEq,
      and_iff_left rfl]
  · intro i hi
    rw [List.length_map] at hi
    refine ⟨_, ?_, hminimal.assignAll_eraseIdx_ne hi⟩
    rw [List.eraseIdx_map]
    exact hrendered _ (fun e he => List.mem_of_mem_eraseIdx he) w₁

/-- Over a preset, the port and the name are set back to the defaults. What is left to explain are
the hosts and the connections. -/
theorem explain_minimal_prod :
    let world : World := ⟨⟨[("presets:prod", .constant prodPreset)]⟩, fun _ => .error .missing⟩
    let args := ["--from-fn=presets:prod", "server.port=3000", "name=layerfig-demo"]
    let c := config.fill (.object [("allow", .array [.text "10.0.0.0/8"]),
      ("server", .object [("host", .text "0.0.0.0"), ("max_connections", .ofInt 10000)])])
    let out := ["allow=[\"10.0.0.0/8\"]", "server.host=\"0.0.0.0\"",
      "server.max_connections=10000"]
    ∃ w', loadConfig .firstOnly args world = (.ok c, w') ∧
      explain .firstOnly c world = (.ok out, world) ∧
      loadConfig .firstOnly out world = (.ok c, world) ∧
      ∀ i < out.length, ∃ c', loadConfig .firstOnly (out.eraseIdx i) world = (.ok c', world) ∧
        c' ≠ c := by
  intro world args c out
  have hfirst : (loadConfig .firstOnly args world).1 = .ok c :=
    toOption_eq_some.1 (by decide +kernel)
  have hload : loadConfig .firstOnly args world =
      (.ok c, (loadConfig .firstOnly args world).2) := by
    rw [← hfirst]
  obtain ⟨out', -, hworlds⟩ := explain_minimal hload
  obtain ⟨hexplain, hback, -, hwithout⟩ := hworlds world
  have heval : (explain .firstOnly c world).1 = .ok out :=
    toOption_eq_some.1 (by decide +kernel)
  rw [hexplain] at heval
  obtain rfl : out' = out := Except.ok.inj heval
  exact ⟨_, hload, hexplain, hback, hwithout⟩

end Demo

end ConfigOverlay
