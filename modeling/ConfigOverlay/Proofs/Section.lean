import ConfigOverlay.Proofs.Assign
import ConfigOverlay.Proofs.Outcome
import ConfigOverlay.Target

/-!
# Sections by their settings

The functions on sections walk settings by mutual recursion. Here each of them is restated over
single settings: what a setting does with its value (`Setting.bind`, `Setting.load`,
`Setting.unknownKeys`) and how a section puts that together. Later proofs go by induction over
sections, with one hypothesis for every nested section (`Section.structural`).

**Loading a layer fails only where a required setting has no value**
(`exists_missingSetting_of_loadLayer`).
-/

namespace ConfigOverlay.Schema

open Outcome

/-! ## Induction -/

/-- Structural induction with a hypothesis for every nested section. -/
@[elab_as_elim]
theorem Section.structural {motive : Section → Prop}
    (mk : ∀ type settings, (∀ name sec, Setting.nested name sec ∈ settings → motive sec) →
      motive (.mk type settings)) : ∀ sec, motive sec
  | .mk type settings => mk type settings fun _ sec _ => Section.structural mk sec
termination_by sec => sizeOf sec
decreasing_by
  rename_i h
  have := List.sizeOf_lt_of_mem h
  simp only [Section.mk.sizeOf_spec, Setting.nested.sizeOf_spec] at this ⊢
  omega

/-! ## Single settings -/

namespace Setting

/-- What stands in a layer for a setting that was not bound. -/
def absent : Setting → Tree
  | .value .. => .null
  | .nested _ sec => sec.emptyLayer

/-- The layer of a setting. -/
def bind : Setting → Tree → Except Fault Tree
  | .value _ shape _, t => bindOptional shape t
  | .nested _ sec, t => sec.bindLayer t

/-- The undeclared keys below a setting. -/
def unknownKeys : Setting → Tree → List (List String)
  | .value _ shape _, t => optionalUnknownKeys shape t
  | .nested _ sec, t => sec.unknownKeys t

/-- The value of a setting without one. -/
def fallback (key : String) : Presence → Except Error Tree
  | .required => .error (.missingSetting key)
  | .optional => .ok .null
  | .defaulted t => .ok t

/-- The value of the layer of a setting. -/
def load (path : KeyPath) : Setting → Tree → Except Error Tree
  | .value name _ presence, t =>
    if t = .null then fallback (KeyPath.display (path ++ [name])) presence else .ok t
  | .nested name sec, t => sec.loadLayer (path ++ [name]) t

end Setting

/-! ## Sections -/

theorem completeLayer_eq_map (bound : Bound) (settings : List Setting) :
    completeLayer bound settings =
      settings.map fun s => (s.name, (Fields.get? s.name bound).getD s.absent) := by
  induction settings with
  | nil => rfl
  | cons s settings ih =>
    cases s <;> exact congrArg (List.cons _) ih

theorem emptySettings_eq (settings : List Setting) :
    emptySettings settings = completeLayer [] settings := by
  induction settings with
  | nil => rfl
  | cons s settings ih =>
    cases s with
    | value name shape presence =>
      rw [emptySettings, ih]
      rfl
    | nested name sec =>
      rw [emptySettings, ih]
      rfl

theorem bindSetting_eq (settings : List Setting) (k : String) (t : Tree) :
    bindSetting settings k t = (settings.find? fun s => k = s.name).map fun s => s.bind t := by
  induction settings with
  | nil => rfl
  | cons s settings ih =>
    cases s with
    | value name shape presence =>
      rw [bindSetting, ih, List.find?_cons]
      by_cases h : k = name <;> simp [h, Setting.name, Setting.bind]
    | nested name sec =>
      rw [bindSetting, ih, List.find?_cons]
      by_cases h : k = name <;> simp [h, Setting.name, Setting.bind]

theorem settingUnknownKeys_eq (settings : List Setting) (k : String) (t : Tree) :
    settingUnknownKeys settings k t =
      (settings.find? fun s => k = s.name).map fun s => s.unknownKeys t := by
  induction settings with
  | nil => rfl
  | cons s settings ih =>
    cases s with
    | value name shape presence =>
      rw [settingUnknownKeys, ih, List.find?_cons]
      by_cases h : k = name <;> simp [h, Setting.name, Setting.unknownKeys]
    | nested name sec =>
      rw [settingUnknownKeys, ih, List.find?_cons]
      by_cases h : k = name <;> simp [h, Setting.name, Setting.unknownKeys]

/-- Fields are bound: those of declared settings, one by one, and the others are passed over. -/
inductive BindsFields (settings : List Setting) : Fields Tree → Bound → Prop
  | nil : BindsFields settings [] []
  | declared {k : String} {x y : Tree} {fs : Fields Tree} {bound : Bound}
    (h : bindSetting settings k x = some (.ok y)) (hrest : BindsFields settings fs bound) :
    BindsFields settings ((k, x) :: fs) ((k, y) :: bound)
  | undeclared {k : String} {x : Tree} {fs : Fields Tree} {bound : Bound}
    (h : bindSetting settings k x = none) (hrest : BindsFields settings fs bound) :
    BindsFields settings ((k, x) :: fs) bound

theorem filterMapM_bindSetting_eq_ok {settings : List Setting} {fs : Fields Tree} {bound : Bound} :
    (fs.filterMapM fun (k, x) =>
      match bindSetting settings k x with
      | some outcome => return some (k, ← outcome)
      | none => return none : Except Fault (List (String × Tree))) = .ok bound ↔
        BindsFields settings fs bound := by
  induction fs generalizing bound with
  | nil =>
    rw [List.filterMapM_nil]
    constructor
    · rintro ⟨⟩
      exact .nil
    · rintro ⟨⟩
      rfl
  | cons f fs ih =>
    obtain ⟨k, x⟩ := f
    rw [List.filterMapM_cons]
    dsimp only
    cases hb : bindSetting settings k x with
    | none =>
      refine Iff.trans ih ⟨.undeclared hb, ?_⟩
      rintro (_ | ⟨h, hrest⟩ | ⟨h, hrest⟩)
      · cases hb.symm.trans h
      · exact hrest
    | some outcome =>
      cases outcome with
      | error e =>
        constructor
        · rintro ⟨⟩
        · rintro (_ | ⟨h, hrest⟩ | ⟨h, hrest⟩) <;> cases hb.symm.trans h
      | ok y =>
        show (List.filterMapM _ fs >>= fun rest => Except.ok ((k, y) :: rest)) = Except.ok bound ↔ _
        rw [bind_eq_ok]
        constructor
        · rintro ⟨rest, hrest, ⟨⟩⟩
          exact .declared hb (ih.1 hrest)
        · rintro (_ | ⟨h, hrest⟩ | ⟨h, hrest⟩)
          · cases hb.symm.trans h
            exact ⟨_, ih.2 hrest, rfl⟩
          · cases hb.symm.trans h

/-- **The layer of an object** is the layer of its bound fields. -/
theorem bindLayer_object_eq_ok {type : String} {settings : List Setting} {fs : Fields Tree}
    {layer : Tree} :
    (Section.mk type settings).bindLayer (.object fs) = .ok layer ↔
      ∃ bound, BindsFields settings fs bound ∧ layer = .object (completeLayer bound settings) := by
  rw [Section.bindLayer.eq_def]
  dsimp only
  refine bind_eq_ok.trans (exists_congr fun bound => and_congr filterMapM_bindSetting_eq_ok ?_)
  rw [pure_eq_ok, Except.ok.injEq, eq_comm]

theorem loadSettings_cons (path : KeyPath) (s : Setting) (settings : List Setting)
    (layer : Fields Tree) :
    loadSettings path (s :: settings) layer = (do
      let t ← s.load path ((Fields.get? s.name layer).getD .null)
      return (s.name, t) :: (← loadSettings path settings layer)) := by
  cases s with
  | nested name sec => rfl
  | value name shape presence =>
    rw [loadSettings.eq_def]
    dsimp only [Setting.name]
    generalize (Fields.get? name layer).getD .null = t
    cases t <;> cases presence <;> rfl

/-! ## Loading -/

theorem exists_missingSetting_of_load {path : KeyPath} {s : Setting} {t : Tree} {e : Error}
    (hsec : ∀ name sec, s = .nested name sec → ∀ path t e, sec.loadLayer path t = .error e →
      ∃ key, e = .missingSetting key)
    (h : s.load path t = .error e) : ∃ key, e = .missingSetting key := by
  cases s with
  | nested name sec => exact hsec name sec rfl _ _ _ h
  | value name shape presence =>
    rw [Setting.load] at h
    split_ifs at h
    cases presence with
    | required =>
      cases h
      exact ⟨_, rfl⟩
    | optional => cases h
    | defaulted t => cases h

/-- **Loading a layer fails only where a required setting has no value.** -/
theorem exists_missingSetting_of_loadLayer {sec : Section} {path : KeyPath} {layer : Tree}
    {e : Error} (h : sec.loadLayer path layer = .error e) : ∃ key, e = .missingSetting key := by
  induction sec using Section.structural generalizing path layer e with
  | mk type settings ih =>
    rw [Section.loadLayer] at h
    generalize (layer.fields?).getD [] = fs at h
    have hsettings : loadSettings path settings fs = .error e := by
      rcases bind_eq_error.1 h with h | ⟨t, -, h⟩
      · exact h
      · cases h
    clear h
    induction settings with
    | nil => cases hsettings
    | cons s settings ih' =>
      rw [loadSettings_cons] at hsettings
      rcases bind_eq_error.1 hsettings with h | ⟨t, -, h⟩
      · exact exists_missingSetting_of_load
          (fun name sec hs path t e => ih name sec (by simp [hs])) h
      · rcases bind_eq_error.1 h with h | ⟨ts, -, h⟩
        · exact ih' (fun name sec hs => ih name sec (by simp [hs])) h
        · cases h

end ConfigOverlay.Schema
