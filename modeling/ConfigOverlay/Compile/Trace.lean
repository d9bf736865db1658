import ConfigOverlay.Compile.Basic

/-!
# What a compilation does

Sources and checks that keep a record of their use, beside the state they work on. The record is
what can be said about a compilation apart from its outcome: which documents were loaded, which
factories ran, and which trees were checked, in order.
-/

namespace ConfigOverlay

/-- One use of a source or check. -/
inductive Event where
  | loaded (path : String)
  | made (id : String)
  | checked (t : Tree)

variable {σ α : Type}

/-- An action that notes an event and then runs. -/
def Action.noting (event : Event) (x : Action σ α) : Action (σ × List Event) α :=
  fun (s, events) =>
    let (outcome, s) := x s
    (outcome, (s, events ++ [event]))

/-- Sources that record every use. -/
def Sources.recording (sources : Sources σ) : Sources (σ × List Event) where
  document path := (sources.document path).noting (.loaded path)
  factory id := (sources.factory id).noting (.made id)

/-- A check that records every tree it is given. -/
def recordingCheck (check : Tree → Action σ Unit) : Tree → Action (σ × List Event) Unit :=
  fun t => (check t).noting (.checked t)

/-- The trees that were checked, in order. -/
def checkedTrees (events : List Event) : List Tree :=
  events.filterMap fun
    | .checked t => some t
    | _ => none

end ConfigOverlay
