import ConfigOverlay.Proofs.Section
import ConfigOverlay.Proofs.Json.Scalar
import Mathlib.Data.List.Nodup

/-!
# Sections whose settings all have defaults

In such a section a value is a scalar or a list of scalars, and it is bound as it is
(`bind_leaf`). So a tree of declared settings with such values, `Section.Takes`, goes through
binding and loading with nothing changed but that defaults are filled in: its configuration is
`Section.fill` of it (`Section.Defaulted.bind_eq`).

**Whatever tree a configuration was loaded from, it is complete**
(`Section.Defaulted.complete_of_bind`): it has all settings in declaration order, and there is
nothing left to fill in.
-/

namespace ConfigOverlay

/-! ## Leaves -/

namespace Tree

/-- A truth value, a text or an integer. -/
inductive Scalar : Tree → Prop
  | bool (b : Bool) : Scalar (.bool b)
  | text (s : String) : Scalar (.text s)
  | integer (n : Int) (h) : Scalar (.number (.int n h))

/-- A scalar or an array of scalars. -/
inductive Leaf : Tree → Prop
  | scalar {t : Tree} (h : Scalar t) : Leaf t
  | array {xs : List Tree} (h : ∀ x ∈ xs, Scalar x) : Leaf (array xs)

variable {t u : Tree}

theorem Scalar.plain (h : Scalar t) : t.Plain := by
  cases h with
  | bool b => exact plain_bool b
  | text s => exact plain_text s
  | integer n h => exact plain_number _

theorem Leaf.plain (h : Leaf t) : t.Plain := by
  cases h with
  | scalar h => exact h.plain
  | array h => exact plain_array.2 fun x hx => (h x hx).plain

theorem Scalar.eq_of_same (ht : Scalar t) (hu : Scalar u) (h : t.same u = true) : t = u := by
  cases ht <;> cases hu <;> simp_all [same, Number.same]

theorem Leaf.eq_of_same (ht : Leaf t) (hu : Leaf u) (h : t.same u = true) : t = u := by
  cases ht with
  | scalar ht =>
    cases hu with
    | scalar hu => exact ht.eq_of_same hu h
    | array hu => cases ht <;> simp [same] at h
  | @array xs ht =>
    cases hu with
    | scalar hu => cases hu <;> simp [same] at h
    | @array ys hu =>
      rw [same_array] at h
      have heq : List.Forall₂ Eq xs ys :=
        forall₂_imp_mem h fun x hx y hy hxy => (ht x hx).eq_of_same (hu y hy) hxy
      rw [List.forall₂_eq_eq_eq] at heq
      rw [heq]

theorem Leaf.ne_null (h : Leaf t) : t ≠ .null := by
  rintro rfl
  cases h with
  | scalar h => cases h

theorem Leaf.ne_object (h : Leaf t) (fs : Fields Tree) : t ≠ .object fs := by
  rintro rfl
  cases h with
  | scalar h => cases h

end Tree

namespace Schema

open Outcome

/-- Values of the shape are scalars. -/
def Shape.isScalar : Shape → Bool
  | .bool | .text | .integer .. => true
  | _ => false

/-- Values of the shape are scalars or lists of scalars. -/
def Shape.isLeaf : Shape → Bool
  | .list item => item.isScalar
  | shape => shape.isScalar

theorem bind_scalar {shape : Shape} (hs : shape.isScalar = true) {t u : Tree}
    (h : shape.bind t = .ok u) : u = t ∧ t.Scalar := by
  cases shape with
  | bool =>
    rw [Shape.bind] at h
    cases t with
    | bool b =>
      cases h
      exact ⟨rfl, .bool b⟩
    | _ => cases h
  | text =>
    rw [Shape.bind] at h
    cases t with
    | text s =>
      cases h
      exact ⟨rfl, .text s⟩
    | _ => cases h
  | integer type low high =>
    rw [Shape.bind] at h
    cases t with
    | number n =>
      cases n with
      | int n hn =>
        rw [bindInteger] at h
        split_ifs at h
        cases h
        exact ⟨rfl, .integer n hn⟩
      | float x => cases h
    | _ => cases h
  | _ => cases hs

/-- **Leaves are bound as they are.** -/
theorem bind_leaf {shape : Shape} (hs : shape.isLeaf = true) {t u : Tree}
    (h : shape.bind t = .ok u) : u = t ∧ t.Leaf := by
  cases shape with
  | list item =>
    rw [Shape.bind.eq_def] at h
    dsimp only at h
    cases t with
    | array xs =>
      obtain ⟨ys, hys, h⟩ := bind_eq_ok.1 h
      cases h
      rw [mapM_eq_ok] at hys
      obtain ⟨heq, hscalar⟩ : ys = xs ∧ ∀ x ∈ xs, x.Scalar := by
        clear h
        induction hys with
        | nil => simp
        | cons hxy _ ih =>
          obtain ⟨rfl, hx⟩ := bind_scalar hs hxy
          exact ⟨congrArg _ ih.1, List.forall_mem_cons.2 ⟨hx, ih.2⟩⟩
      exact ⟨congrArg _ heq, .array hscalar⟩
    | _ => cases h
  | bool => exact (bind_scalar (show Shape.bool.isScalar = true from hs) h).imp_right .scalar
  | text => exact (bind_scalar (show Shape.text.isScalar = true from hs) h).imp_right .scalar
  | integer type low high =>
    exact (bind_scalar (show (Shape.integer type low high).isScalar = true from hs) h).imp_right
      .scalar
  | _ => cases hs

theorem unknownKeys_scalar {shape : Shape} (hs : shape.isScalar = true) (t : Tree) :
    shape.unknownKeys t = [] := by
  cases shape with
  | bool => rfl
  | text => rfl
  | integer => rfl
  | _ => cases hs

theorem unknownKeys_leaf {shape : Shape} (hs : shape.isLeaf = true) (t : Tree) :
    shape.unknownKeys t = [] := by
  cases shape with
  | list item =>
    cases t with
    | array xs =>
      rw [Shape.unknownKeys.eq_def]
      dsimp only
      rw [List.flatMap_eq_nil_iff]
      intro x _
      rw [unknownKeys_scalar hs, List.map_nil]
    | _ => rfl
  | bool => rfl
  | text => rfl
  | integer => rfl
  | _ => cases hs

theorem optionalUnknownKeys_leaf {shape : Shape} (hs : shape.isLeaf = true) (t : Tree) :
    optionalUnknownKeys shape t = [] := by
  rw [optionalUnknownKeys.eq_def]
  split
  · rfl
  · rw [unknownKeys_leaf hs, List.map_nil]

/-! ## Sections with defaults -/

/-- Every setting has a default, a leaf that binds as it is, and the names of settings are different
and can be written. -/
inductive Section.Defaulted : Section → Prop
  | mk {type : String} {settings : List Setting} (hnames : (settings.map Setting.name).Nodup)
    (hkeys : ∀ s ∈ settings, isAddressable s.name = true)
    (hvalue : ∀ name shape presence, Setting.value name shape presence ∈ settings →
      shape.isLeaf = true ∧ ∃ t, presence = .defaulted t ∧ shape.bind t = .ok t)
    (hnested : ∀ name sec, Setting.nested name sec ∈ settings → sec.Defaulted) :
    Defaulted (.mk type settings)

namespace Section.Defaulted

variable {type : String} {settings : List Setting} (h : (Section.mk type settings).Defaulted)

include h

theorem nodup_names : (settings.map Setting.name).Nodup := by
  cases h with
  | mk hnames hkeys hvalue hnested => exact hnames

theorem isAddressable_name {s : Setting} (hs : s ∈ settings) : isAddressable s.name = true := by
  cases h with
  | mk hnames hkeys hvalue hnested => exact hkeys s hs

theorem isLeaf {name : String} {shape : Shape} {presence : Presence}
    (hs : Setting.value name shape presence ∈ settings) : shape.isLeaf = true := by
  cases h with
  | mk hnames hkeys hvalue hnested => exact (hvalue name shape presence hs).1

theorem exists_default {name : String} {shape : Shape} {presence : Presence}
    (hs : Setting.value name shape presence ∈ settings) :
    ∃ t, presence = .defaulted t ∧ shape.bind t = .ok t := by
  cases h with
  | mk hnames hkeys hvalue hnested => exact (hvalue name shape presence hs).2

theorem of_nested {name : String} {sec : Section} (hs : Setting.nested name sec ∈ settings) :
    sec.Defaulted := by
  cases h with
  | mk hnames hkeys hvalue hnested => exact hnested name sec hs

end Section.Defaulted

/-- The value of a setting that a tree has, or its default. -/
def Presence.orDefault : Presence → Tree → Tree
  | .defaulted d, .null => d
  | _, t => t

theorem Presence.orDefault_of_ne_null {t : Tree} (h : t ≠ .null) (presence : Presence) :
    presence.orDefault t = t := by
  cases presence with
  | defaulted d => cases t <;> first | exact absurd rfl h | rfl
  | _ => rfl

mutual

/-- The configuration that a tree stands for: every setting in declaration order, with its default
where the tree has no value. -/
def Section.fill : Section → Tree → Tree
  | .mk _ settings, t => .object (fillSettings settings t)

def fillSettings : List Setting → Tree → Fields Tree
  | [], _ => []
  | .value name _ presence :: settings, t =>
    (name, presence.orDefault (Tree.child name t)) :: fillSettings settings t
  | .nested name sec :: settings, t =>
    (name, sec.fill (Tree.child name t)) :: fillSettings settings t

end

mutual

/-- The tree is an object of declared settings with values that bind as they are. -/
def Section.Takes : Section → Tree → Prop
  | .mk _ settings, t =>
    ∃ fs : Fields Tree, t = .object fs ∧ fs.Distinct ∧ ∀ f ∈ fs, TakesField settings f.1 f.2

/-- One of the settings has the name and takes the value. -/
def TakesField : List Setting → String → Tree → Prop
  | [], _, _ => False
  | .value name shape _ :: settings, k, t =>
    (name = k ∧ (t = .null ∨ shape.bind t = .ok t)) ∨ TakesField settings k t
  | .nested name sec :: settings, k, t => (name = k ∧ sec.Takes t) ∨ TakesField settings k t

end

namespace Setting

/-- The value of a setting, with its defaults. -/
def fill : Setting → Tree → Tree
  | .value _ _ presence, t => presence.orDefault t
  | .nested _ sec, t => sec.fill t

/-- A value that binds as it is. -/
def Takes : Setting → Tree → Prop
  | .value _ shape _, t => t = .null ∨ shape.bind t = .ok t
  | .nested _ sec, t => sec.Takes t

end Setting

theorem fillSettings_eq_map (settings : List Setting) (t : Tree) :
    fillSettings settings t = settings.map fun s => (s.name, s.fill (Tree.child s.name t)) := by
  induction settings with
  | nil => rfl
  | cons s settings ih =>
    cases s with
    | value name shape presence =>
      rw [fillSettings, ih]
      rfl
    | nested name sec =>
      rw [fillSettings, ih]
      rfl

theorem takesField_iff {settings : List Setting} {k : String} {t : Tree} :
    TakesField settings k t ↔ ∃ s ∈ settings, s.name = k ∧ s.Takes t := by
  induction settings with
  | nil => simp [TakesField]
  | cons s settings ih =>
    cases s with
    | value name shape presence =>
      rw [TakesField, ih]
      simp [Setting.name, Setting.Takes]
    | nested name sec =>
      rw [TakesField, ih]
      simp [Setting.name, Setting.Takes]

theorem takes_object {type : String} {settings : List Setting} {fs : Fields Tree} :
    (Section.mk type settings).Takes (.object fs) ↔
      fs.Distinct ∧ ∀ f ∈ fs, ∃ s ∈ settings, s.name = f.1 ∧ s.Takes f.2 := by
  rw [Section.Takes]
  simp only [takesField_iff]
  constructor
  · rintro ⟨_, ⟨⟩, hd, h⟩
    exact ⟨hd, h⟩
  · rintro ⟨hd, h⟩
    exact ⟨fs, rfl, hd, h⟩

/-! ## Layers -/

section

variable {type : String} {settings : List Setting}

theorem find?_name (hnames : (settings.map Setting.name).Nodup) {s : Setting} (hs : s ∈ settings) :
    (settings.find? fun s' => s.name = s'.name) = some s := by
  cases h : settings.find? fun s' => s.name = s'.name with
  | none => simpa using List.find?_eq_none.1 h s hs
  | some s' =>
    have hname : s.name = s'.name := by simpa using List.find?_some h
    rw [List.inj_on_of_nodup_map hnames hs (List.mem_of_find?_eq_some h) hname]

theorem bindSetting_of_mem (hnames : (settings.map Setting.name).Nodup) {s : Setting}
    (hs : s ∈ settings) (t : Tree) : bindSetting settings s.name t = some (s.bind t) := by
  rw [bindSetting_eq, find?_name hnames hs, Option.map_some]

theorem takes_of_forall₂ (hnames : (settings.map Setting.name).Nodup) {fs : Fields Tree}
    (h : List.Forall₂ (fun s f => f.1 = s.name ∧ s.Takes f.2) settings fs) :
    (Section.mk type settings).Takes (.object fs) := by
  have hkeys : fs.keys = settings.map Setting.name ∧
      ∀ f ∈ fs, ∃ s ∈ settings, s.name = f.1 ∧ s.Takes f.2 := by
    clear hnames
    induction h with
    | nil => simp [Fields.keys]
    | @cons s f settings fs hsf _ ih =>
      refine ⟨congrArg₂ List.cons hsf.1 ih.1, List.forall_mem_cons.2 ⟨?_, fun g hg => ?_⟩⟩
      · exact ⟨s, by simp, hsf.1.symm, hsf.2⟩
      · obtain ⟨s', hs', hg⟩ := ih.2 g hg
        exact ⟨s', by simp [hs'], hg⟩
  refine takes_object.2 ⟨?_, hkeys.2⟩
  rw [Fields.Distinct, hkeys.1]
  exact hnames

theorem bindLayer_empty (sec : Section) : sec.bindLayer .empty = .ok sec.emptyLayer := by
  cases sec with
  | mk type settings =>
    refine bindLayer_object_eq_ok.2 ⟨[], .nil, ?_⟩
    rw [Section.emptyLayer, emptySettings_eq]

theorem forall₂_of_bindSettings {size : Nat}
    (htakes : ∀ s ∈ settings, s.Takes s.absent ∧ ∀ t u, s.bind t = .ok u → s.Takes u)
    {index : Nat} {xs : List Tree} {fs : Fields Tree}
    (h : bindSettings type size index settings xs = .ok fs) :
    List.Forall₂ (fun s f => f.1 = s.name ∧ s.Takes f.2) settings fs := by
  induction settings generalizing index xs fs with
  | nil =>
    cases h
    exact .nil
  | cons s settings ih =>
    rw [List.forall_mem_cons] at htakes
    cases s with
    | value name shape presence =>
      cases xs with
      | nil => cases h
      | cons x xs =>
        obtain ⟨t, ht, h⟩ := bind_eq_ok.1 h
        obtain ⟨rest, hrest, h⟩ := bind_eq_ok.1 h
        cases h
        exact .cons ⟨rfl, htakes.1.2 x t ht⟩ (ih htakes.2 hrest)
    | nested name sec =>
      cases xs with
      | nil =>
        obtain ⟨rest, hrest, h⟩ := bind_eq_ok.1 h
        cases h
        exact .cons ⟨rfl, htakes.1.1⟩ (ih htakes.2 hrest)
      | cons x xs =>
        obtain ⟨t, ht, h⟩ := bind_eq_ok.1 h
        obtain ⟨rest, hrest, h⟩ := bind_eq_ok.1 h
        cases h
        exact .cons ⟨rfl, htakes.1.2 x t ht⟩ (ih htakes.2 hrest)

theorem BindsFields.exists_of_mem {fs : Fields Tree} {bound : Bound}
    (h : BindsFields settings fs bound) :
    ∀ f ∈ bound, ∃ t, bindSetting settings f.1 t = some (.ok f.2) := by
  induction h with
  | nil => simp
  | declared hb _ ih => exact List.forall_mem_cons.2 ⟨⟨_, hb⟩, ih⟩
  | undeclared _ _ ih => exact ih

end

/-- **Layers are taken as they are**, whatever tree they were bound from. -/
theorem Section.Defaulted.takes_of_bindLayer {sec : Section} (h : sec.Defaulted) {t layer : Tree}
    (hb : sec.bindLayer t = .ok layer) : sec.Takes layer := by
  induction h generalizing t layer with
  | @mk type settings hnames hkeys hvalue hnested ih =>
    -- Each setting takes its default and whatever it binds; below a section this is the induction.
    have htakes : ∀ s ∈ settings, s.Takes s.absent ∧ ∀ t u, s.bind t = .ok u → s.Takes u := by
      intro s hs
      cases s with
      | value name shape presence =>
        refine ⟨.inl rfl, fun t u hu => ?_⟩
        obtain ⟨hleaf, -⟩ := hvalue name shape presence hs
        cases t with
        | null =>
          cases hu
          exact .inl rfl
        | _ =>
          obtain ⟨rfl, -⟩ := bind_leaf hleaf hu
          exact .inr hu
      | nested name sec =>
        exact ⟨ih name sec hs (bindLayer_empty sec), fun t u hu => ih name sec hs hu⟩
    cases t with
    | object fs =>
      obtain ⟨bound, hbound, rfl⟩ := bindLayer_object_eq_ok.1 hb
      rw [completeLayer_eq_map]
      refine takes_of_forall₂ hnames ?_
      rw [List.forall₂_map_right_iff, List.forall₂_same]
      intro s hs
      refine ⟨rfl, ?_⟩
      cases hg : Fields.get? s.name bound with
      | none => exact (htakes s hs).1
      | some u =>
        obtain ⟨t, ht⟩ := hbound.exists_of_mem _ (Fields.mem_of_get? hg)
        rw [bindSetting_of_mem hnames hs, Option.some.injEq] at ht
        exact (htakes s hs).2 t u ht
    | array xs =>
      rw [Section.bindLayer.eq_def] at hb
      dsimp only at hb
      obtain ⟨fs, hfs, hb⟩ := bind_eq_ok.1 hb
      split_ifs at hb
      · cases hb
      · cases hb
        exact takes_of_forall₂ hnames (forall₂_of_bindSettings htakes hfs)
    | _ =>
      rw [Section.bindLayer.eq_def] at hb
      cases hb

/-! ## Loading and binding what is taken -/

theorem Section.Takes.exists_object {sec : Section} {t : Tree} (h : sec.Takes t) :
    ∃ fs, t = .object fs := by
  cases sec with
  | mk type settings =>
    obtain ⟨fs, rfl, -⟩ := h
    exact ⟨fs, rfl⟩

theorem takes_empty (sec : Section) : sec.Takes .empty := by
  cases sec with
  | mk type settings => exact takes_object.2 ⟨List.nodup_nil, by simp⟩

theorem fill_empty (sec : Section) : sec.fill .empty = sec.fill .null := by
  cases sec with
  | mk type settings =>
    rw [Section.fill, Section.fill, fillSettings_eq_map, fillSettings_eq_map]
    rfl

section

variable {type : String} {settings : List Setting}

theorem child_takes (hnames : (settings.map Setting.name).Nodup) {t : Tree}
    (ht : (Section.mk type settings).Takes t ∨ t = .null) {s : Setting} (hs : s ∈ settings) :
    s.Takes (Tree.child s.name t) ∨ Tree.child s.name t = .null := by
  rcases ht with ht | rfl
  · obtain ⟨fs, rfl⟩ := ht.exists_object
    rw [Tree.child, Tree.fieldsOrEmpty_object]
    cases hg : Fields.get? s.name fs with
    | none => exact .inr rfl
    | some x =>
      obtain ⟨s', hs', hname, htakes⟩ := (takes_object.1 ht).2 _ (Fields.mem_of_get? hg)
      cases List.inj_on_of_nodup_map hnames hs' hs hname
      exact .inl htakes
  · exact .inr rfl

theorem keys_map_settings (g : Setting → Tree) (settings : List Setting) :
    Fields.keys (settings.map fun s => (s.name, g s)) = settings.map Setting.name := by
  rw [Fields.keys, List.map_map]
  rfl

theorem distinct_map_settings (hnames : (settings.map Setting.name).Nodup) (g : Setting → Tree) :
    Fields.Distinct (settings.map fun s => (s.name, g s)) := by
  rw [Fields.Distinct, keys_map_settings]
  exact hnames

theorem get?_map_settings (hnames : (settings.map Setting.name).Nodup) (g : Setting → Tree)
    {s : Setting} (hs : s ∈ settings) :
    Fields.get? s.name (settings.map fun s => (s.name, g s)) = some (g s) :=
  (distinct_map_settings hnames g).get?_of_mem (List.mem_map_of_mem hs)

theorem child_map_settings (hnames : (settings.map Setting.name).Nodup) (g : Setting → Tree)
    {s : Setting} (hs : s ∈ settings) :
    Tree.child s.name (.object (settings.map fun s => (s.name, g s))) = g s := by
  rw [Tree.child, Tree.fieldsOrEmpty_object, get?_map_settings hnames g hs, Option.getD_some]

theorem child_fill (hnames : (settings.map Setting.name).Nodup) (t : Tree) {s : Setting}
    (hs : s ∈ settings) :
    Tree.child s.name ((Section.mk type settings).fill t) = s.fill (Tree.child s.name t) := by
  rw [Section.fill, fillSettings_eq_map]
  exact child_map_settings hnames (fun s => s.fill (Tree.child s.name t)) hs

/-- Fields that can all be bound are bound, each to its layer. -/
theorem exists_bindsFields {fs : Fields Tree}
    (h : ∀ f ∈ fs, ∃ y, bindSetting settings f.1 f.2 = some (.ok y)) :
    ∃ bound, BindsFields settings fs bound ∧ ∀ k,
      Option.Rel (fun x y => bindSetting settings k x = some (.ok y)) (Fields.get? k fs)
        (Fields.get? k bound) := by
  induction fs with
  | nil => exact ⟨[], .nil, fun k => .none⟩
  | cons f fs ih =>
    obtain ⟨l, x⟩ := f
    rw [List.forall_mem_cons] at h
    obtain ⟨y, hy⟩ := h.1
    obtain ⟨bound, hbound, hrel⟩ := ih h.2
    refine ⟨(l, y) :: bound, .declared hy hbound, fun k => ?_⟩
    rw [Fields.get?_cons, Fields.get?_cons]
    split_ifs with hk
    · subst hk
      exact .some hy
    · exact hrel k

theorem loadSettings_eq_ok {path : KeyPath} {layer : Fields Tree} {g : Setting → Tree}
    (h : ∀ s ∈ settings, s.load path ((Fields.get? s.name layer).getD .null) = .ok (g s)) :
    loadSettings path settings layer = .ok (settings.map fun s => (s.name, g s)) := by
  induction settings with
  | nil => rfl
  | cons s settings ih =>
    rw [List.forall_mem_cons] at h
    rw [loadSettings_cons, h.1, ok_bind, ih h.2]
    rfl

end

namespace Section.Defaulted

variable {sec : Section} {t : Tree}

/-- **Loading fills in the defaults.** -/
theorem loadLayer_eq (h : sec.Defaulted) (ht : sec.Takes t ∨ t = .null) (path : KeyPath) :
    sec.loadLayer path t = .ok (sec.fill t) := by
  induction h generalizing t path with
  | @mk type settings hnames hkeys hvalue hnested ih =>
    have hfields : (t.fields?).getD [] = t.fieldsOrEmpty := by
      rcases ht with ht | rfl
      · obtain ⟨fs, rfl⟩ := ht.exists_object
        rfl
      · rfl
    rw [Section.loadLayer, hfields, Section.fill, fillSettings_eq_map]
    refine bind_eq_ok.2 ⟨_, loadSettings_eq_ok fun s hs => ?_, rfl⟩
    have hchild := child_takes hnames ht hs
    rw [← Tree.child]
    cases s with
    | value name shape presence =>
      obtain ⟨-, d, rfl, -⟩ := hvalue name shape presence hs
      rw [Setting.load, Setting.fill]
      split_ifs with hnull
      · rw [hnull]
        rfl
      · rw [Presence.orDefault_of_ne_null hnull]
    | nested name sec => exact ih name sec hs hchild _

/-- **Binding keeps what is taken**, up to defaults. -/
theorem exists_bindLayer_eq (h : sec.Defaulted) (ht : sec.Takes t) :
    ∃ layer, sec.bindLayer t = .ok layer ∧ sec.fill layer = sec.fill t := by
  induction h generalizing t with
  | @mk type settings hnames hkeys hvalue hnested ih =>
    -- What binds to what, for one setting.
    have hbind : ∀ s ∈ settings, ∀ x, s.Takes x → ∃ y, s.bind x = .ok y ∧ s.fill y = s.fill x := by
      intro s hs x hx
      cases s with
      | value name shape presence =>
        refine ⟨x, ?_, rfl⟩
        rcases hx with rfl | hx
        · rfl
        · cases x <;> first | rfl | exact hx
      | nested name sec => exact ih name sec hs hx
    have habsent : ∀ s ∈ settings, s.fill s.absent = s.fill .null := by
      intro s hs
      cases s with
      | value name shape presence => rfl
      | nested name sec =>
        obtain ⟨layer, hb, hfill⟩ := ih name sec hs (takes_empty sec)
        cases hb.symm.trans (bindLayer_empty sec)
        exact hfill.trans (fill_empty sec)
    obtain ⟨fs, rfl⟩ := ht.exists_object
    obtain ⟨-, hfs⟩ := takes_object.1 ht
    have hall : ∀ f ∈ fs, ∃ y, bindSetting settings f.1 f.2 = some (.ok y) := by
      intro f hf
      obtain ⟨s, hs, hname, hx⟩ := hfs f hf
      obtain ⟨y, hy, -⟩ := hbind s hs _ hx
      exact ⟨y, by rw [← hname, bindSetting_of_mem hnames hs, hy]⟩
    obtain ⟨bound, hbound, hrel⟩ := exists_bindsFields hall
    refine ⟨_, bindLayer_object_eq_ok.2 ⟨bound, hbound, rfl⟩, ?_⟩
    rw [completeLayer_eq_map, Section.fill, Section.fill, fillSettings_eq_map, fillSettings_eq_map]
    congr 1
    refine List.map_congr_left fun s hs => ?_
    rw [child_map_settings hnames _ hs, Tree.child, Tree.fieldsOrEmpty_object]
    congr 1
    have hk := hrel s.name
    cases hx : Fields.get? s.name fs with
    | none =>
      rw [hx] at hk
      cases hy : Fields.get? s.name bound with
      | none => exact habsent s hs
      | some y => simp [hy] at hk
    | some x =>
      rw [hx] at hk
      cases hy : Fields.get? s.name bound with
      | none => simp [hy] at hk
      | some y =>
        rw [hy, Option.rel_some_some, bindSetting_of_mem hnames hs, Option.some.injEq] at hk
        obtain ⟨s', hs', hname, htakes⟩ := hfs _ (Fields.mem_of_get? hx)
        cases List.inj_on_of_nodup_map hnames hs' hs hname
        obtain ⟨y', hy', hfill⟩ := hbind s hs x htakes
        cases hk.symm.trans hy'
        exact hfill

theorem unknownKeys_eq_nil (h : sec.Defaulted) (ht : sec.Takes t) : sec.unknownKeys t = [] := by
  induction h generalizing t with
  | @mk type settings hnames hkeys hvalue hnested ih =>
    obtain ⟨fs, rfl⟩ := ht.exists_object
    rw [Section.unknownKeys.eq_def]
    dsimp only
    rw [List.flatMap_eq_nil_iff]
    intro f hf
    obtain ⟨s, hs, hname, hx⟩ := (takes_object.1 ht).2 f hf
    have hnil : s.unknownKeys f.2 = [] := by
      cases s with
      | value name shape presence =>
        obtain ⟨hleaf, -⟩ := hvalue name shape presence hs
        exact optionalUnknownKeys_leaf hleaf f.2
      | nested name sec => exact ih name sec hs hx
    rw [← hname, settingUnknownKeys_eq, find?_name hnames hs, Option.map_some, hnil]
    rfl

theorem plain_of_takes (h : sec.Defaulted) (ht : sec.Takes t) : t.Plain := by
  induction h generalizing t with
  | @mk type settings hnames hkeys hvalue hnested ih =>
    obtain ⟨fs, rfl⟩ := ht.exists_object
    obtain ⟨hd, hfs⟩ := takes_object.1 ht
    refine Tree.plain_object.2 ⟨hd, fun f hf => ?_⟩
    obtain ⟨s, hs, -, hx⟩ := hfs f hf
    cases s with
    | value name shape presence =>
      rcases hx with hx | hx
      · rw [hx]
        exact Tree.plain_null
      · exact (bind_leaf (hvalue name shape presence hs).1 hx).2.plain
    | nested name sec => exact ih name sec hs hx

/-- Filling in the defaults of what is taken gives what is taken. -/
theorem takes_fill (h : sec.Defaulted) (ht : sec.Takes t ∨ t = .null) :
    sec.Takes (sec.fill t) := by
  induction h generalizing t with
  | @mk type settings hnames hkeys hvalue hnested ih =>
    rw [Section.fill, fillSettings_eq_map]
    refine takes_of_forall₂ hnames ?_
    rw [List.forall₂_map_right_iff, List.forall₂_same]
    intro s hs
    refine ⟨rfl, ?_⟩
    have hchild := child_takes hnames ht hs
    cases s with
    | value name shape presence =>
      obtain ⟨-, d, rfl, hd⟩ := hvalue name shape presence hs
      rw [Setting.fill]
      by_cases hnull : Tree.child (Setting.value name shape (.defaulted d)).name t = .null
      · rw [hnull]
        exact .inr hd
      · rw [Presence.orDefault_of_ne_null hnull]
        exact hchild.resolve_right hnull
    | nested name sec => exact ih name sec hs hchild

theorem fill_fill (h : sec.Defaulted) (t : Tree) : sec.fill (sec.fill t) = sec.fill t := by
  induction h generalizing t with
  | @mk type settings hnames hkeys hvalue hnested ih =>
    rw [Section.fill, Section.fill, fillSettings_eq_map, fillSettings_eq_map]
    congr 1
    refine List.map_congr_left fun s hs => ?_
    rw [child_map_settings hnames _ hs]
    congr 1
    cases s with
    | value name shape presence =>
      obtain ⟨-, d, rfl, -⟩ := hvalue name shape presence hs
      rw [Setting.fill]
      generalize Tree.child (Setting.value name shape (.defaulted d)).name t = x
      cases x <;> first | rfl | skip
      cases d <;> rfl
    | nested name sec => exact ih name sec hs _

/-! ### The target of a section -/

/-- **What is taken is loaded**, and only defaults are filled in. -/
theorem bind_eq (h : sec.Defaulted) (ht : sec.Takes t) (strict : Bool) :
    sec.target.bind strict t = .ok (sec.fill t) := by
  have herase : t.erase = t := Tree.erase_of_atomFree (h.plain_of_takes ht).atomFree
  obtain ⟨layer, hlayer, hfill⟩ := h.exists_bindLayer_eq ht
  have hload : sec.loadLayer [] layer = .ok (sec.fill t) := by
    rw [h.loadLayer_eq (.inl (h.takes_of_bindLayer hlayer)), hfill]
  have hread : sec.readLayer t = .ok layer := by
    rw [Section.readLayer, herase, hlayer]
    rfl
  have hvalid : sec.validate t = .ok () := by
    rw [Section.validate, hread, herase, h.unknownKeys_eq_nil ht]
    rfl
  cases strict with
  | false =>
    show (sec.readLayer t >>= fun layer => sec.loadLayer [] layer) = _
    rw [hread, ok_bind, hload]
  | true =>
    show (sec.validate t >>= fun _ => sec.readLayer t >>= fun layer => sec.loadLayer [] layer) = _
    rw [hvalid, ok_bind, hread, ok_bind, hload]

end Section.Defaulted

/-- A configuration with all settings in declaration order and with values that bind as they are. -/
structure Section.Complete (sec : Section) (c : Tree) : Prop where
  takes : sec.Takes c
  filled : sec.fill c = c

/-- **What is loaded is complete**, from whatever tree. -/
theorem Section.Defaulted.complete_of_bind {sec : Section} (h : sec.Defaulted) {strict : Bool}
    {t c : Tree} (hb : sec.target.bind strict t = .ok c) : sec.Complete c := by
  have hlayer : ∃ layer, sec.bindLayer t.erase = .ok layer ∧ sec.loadLayer [] layer = .ok c := by
    have hread : (sec.readLayer t >>= fun layer => sec.loadLayer [] layer) = .ok c := by
      cases strict with
      | false => exact hb
      | true =>
        obtain ⟨_, -, hb⟩ := bind_eq_ok.1 hb
        exact hb
    obtain ⟨layer, hlayer, hload⟩ := bind_eq_ok.1 hread
    exact ⟨layer, mapError_eq_ok.1 hlayer, hload⟩
  obtain ⟨layer, hlayer, hload⟩ := hlayer
  have ht := h.takes_of_bindLayer hlayer
  rw [h.loadLayer_eq (.inl ht)] at hload
  cases hload
  exact ⟨h.takes_fill (.inl ht), h.fill_fill layer⟩

end Schema

end ConfigOverlay
