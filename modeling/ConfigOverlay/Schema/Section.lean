import ConfigOverlay.Error
import ConfigOverlay.Schema.Shape

/-!
# Sections of settings

A configuration is a section of settings. A setting holds a value of some shape, or is a section of
its own. Loading goes in two steps: binding a tree gives a *layer*, in which every value may still
be absent, and loading a layer fills in the defaults and reports the first required setting
without a value.

A layer is written as a tree with every setting in declaration order and `null` for what is
absent. In the bound tree a `null` value is absent too, but a section is never `null`.
-/

namespace ConfigOverlay.Schema

/-- What a setting without a value becomes. -/
inductive Presence where
  | required
  | optional
  | defaulted (value : Tree)

mutual

/-- Named settings; the type names the layer in messages. -/
inductive Section where
  | mk (type : String) (settings : List Setting)

/-- One setting. -/
inductive Setting where
  | value (name : String) (shape : Shape) (presence : Presence)
  | nested (name : String) (sec : Section)

end

def Setting.name : Setting → String
  | .value name _ _ => name
  | .nested name _ => name

/-- The type of the layer in messages. -/
def layerType (type : String) : String := "struct " ++ type ++ "Layer"

/-! ## Layers -/

mutual

/-- The layer in which everything is absent. -/
def Section.emptyLayer : Section → Tree
  | .mk _ settings => .object (emptySettings settings)

def emptySettings : List Setting → List (String × Tree)
  | [] => []
  | .value name _ _ :: settings => (name, .null) :: emptySettings settings
  | .nested name sec :: settings => (name, sec.emptyLayer) :: emptySettings settings

end

/-- The layer of bound settings, in declaration order; what was not bound is absent. -/
def completeLayer (bound : Bound) : List Setting → List (String × Tree)
  | [] => []
  | setting :: settings =>
    let absent := match setting with
      | .value _ _ _ => Tree.null
      | .nested _ sec => sec.emptyLayer
    (setting.name, (Fields.get? setting.name bound).getD absent) :: completeLayer bound settings

/-- A value of a layer: nothing when the tree is `null`. -/
def bindOptional (shape : Shape) : Tree → Except Fault Tree
  | .null => .ok .null
  | t => shape.bind t

mutual

/-- The layer that a tree without atoms stands for. Keys that are not declared are passed over. -/
def Section.bindLayer : Section → Tree → Except Fault Tree
  | .mk type settings, t =>
    match t with
    | .object fs => do
      let bound ← fs.filterMapM fun (k, x) =>
        match bindSetting settings k x with
        | some outcome => return some (k, ← outcome)
        | none => return none
      return .object (completeLayer bound settings)
    | .array xs => do
      let layer ← bindSettings (layerType type) settings.length 0 settings xs
      if settings.length < xs.length then
        throw (.invalidLength xs.length "fewer elements in array")
      return .object layer
    | t => throw (mismatch (layerType type) t)

/-- The layer of the setting of a name, if one is declared. -/
def bindSetting : List Setting → String → Tree → Option (Except Fault Tree)
  | [], _, _ => none
  | .value name shape _ :: settings, k, t =>
    if k = name then some (bindOptional shape t) else bindSetting settings k t
  | .nested name sec :: settings, k, t =>
    if k = name then some (sec.bindLayer t) else bindSetting settings k t

/-- The layers of settings given in order, from an index on; only a section may be left out. -/
def bindSettings (type : String) (size : Nat) :
    Nat → List Setting → List Tree → Except Fault (List (String × Tree))
  | _, [], _ => .ok []
  | index, .value name shape _ :: settings, x :: xs => do
    let t ← bindOptional shape x
    return (name, t) :: (← bindSettings type size (index + 1) settings xs)
  | index, .value _ _ _ :: _, [] => throw (tooShort type size index)
  | index, .nested name sec :: settings, x :: xs => do
    let t ← sec.bindLayer x
    return (name, t) :: (← bindSettings type size (index + 1) settings xs)
  | index, .nested name sec :: settings, [] =>
    return (name, sec.emptyLayer) :: (← bindSettings type size (index + 1) settings [])

end

/-! ## Undeclared keys -/

/-- The undeclared keys below a value, which stands behind a `?` step. -/
def optionalUnknownKeys (shape : Shape) : Tree → List (List String)
  | .null => []
  | t => (shape.unknownKeys t).map ("?" :: ·)

mutual

/-- The paths of the undeclared keys of a tree, in its order. -/
def Section.unknownKeys : Section → Tree → List (List String)
  | .mk _ settings, t =>
    match t with
    | .object fs =>
      fs.flatMap fun (k, x) =>
        match settingUnknownKeys settings k x with
        | some paths => paths.map (k :: ·)
        | none => [[k]]
    | .array xs => settingsUnknownKeys 0 settings xs
    | _ => []

/-- The undeclared keys below the setting of a name, if one is declared. -/
def settingUnknownKeys : List Setting → String → Tree → Option (List (List String))
  | [], _, _ => none
  | .value name shape _ :: settings, k, t =>
    if k = name then some (optionalUnknownKeys shape t) else settingUnknownKeys settings k t
  | .nested name sec :: settings, k, t =>
    if k = name then some (sec.unknownKeys t) else settingUnknownKeys settings k t

/-- The undeclared keys below settings given in order. -/
def settingsUnknownKeys : Nat → List Setting → List Tree → List (List String)
  | index, .value _ shape _ :: settings, x :: xs =>
    (optionalUnknownKeys shape x).map (toString index :: ·) ++
      settingsUnknownKeys (index + 1) settings xs
  | index, .nested _ sec :: settings, x :: xs =>
    (sec.unknownKeys x).map (toString index :: ·) ++
      settingsUnknownKeys (index + 1) settings xs
  | _, _, _ => []

end

/-! ## Values -/

mutual

/-- The configuration of a layer. The path leads to the section, for the error of a required
setting without a value. -/
def Section.loadLayer (path : KeyPath) : Section → Tree → Except Error Tree
  | .mk _ settings, layer => do
    return .object (← loadSettings path settings ((layer.fields?).getD []))

def loadSettings (path : KeyPath) :
    List Setting → List (String × Tree) → Except Error (List (String × Tree))
  | [], _ => .ok []
  | .value name _ presence :: settings, layer => do
    let t ← match (Fields.get? name layer).getD .null, presence with
      | .null, .required => throw (Error.missingSetting (KeyPath.display (path ++ [name])))
      | .null, .optional => pure .null
      | .null, .defaulted t => pure t
      | t, _ => pure t
    return (name, t) :: (← loadSettings path settings layer)
  | .nested name sec :: settings, layer => do
    let t ← sec.loadLayer (path ++ [name]) ((Fields.get? name layer).getD .null)
    return (name, t) :: (← loadSettings path settings layer)

end

end ConfigOverlay.Schema
