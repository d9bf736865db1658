import ConfigOverlay.CommandLine
import ConfigOverlay.Demo.Config
import ConfigOverlay.Number.Digits
import ConfigOverlay.Replay
import ConfigOverlay.World

/-!
# The demo program

The demo loads its configuration from overlay arguments and shows it, or shows the arguments that
lead to it from the defaults. Its own options are `--explain`, `--merge-anywhere` and `--port`,
which is short for an assignment after the overlay.
-/

namespace ConfigOverlay.Demo

open CommandLine

/-! ## Options -/

/-- The port that a text names. -/
def readPort? (text : String) : Option Int :=
  (decimalInteger? text.toList).filter fun n => 0 ≤ n && n < 2 ^ 16

/-- The options of the demo. -/
def options : List HostOption := [
  ⟨"explain", none, none⟩,
  ⟨"merge-anywhere", none, none⟩,
  ⟨"port", none, some fun text => (readPort? text).isSome⟩]

/-- Where whole trees may stand. -/
def mode (words : Words) : WholeTreeMode :=
  if words.has "merge-anywhere" then .mergeAnywhere else .firstOnly

/-- The overlay arguments, with the port last. -/
def overlayArguments (words : Words) : Except Error (List String) :=
  match (words.value? "port").bind readPort? with
  | none => .ok words.overlay
  | some port => return words.overlay ++ [← portPath.assignArgument (.ofInt port)]

/-! ## Output -/

/-- The escape sequence that a terminal takes for a colour. -/
def colorCode : String → String
  | "red" => "\x1b[31m"
  | "green" => "\x1b[32m"
  | "yellow" => "\x1b[33m"
  | "blue" => "\x1b[34m"
  | "magenta" => "\x1b[35m"
  | "cyan" => "\x1b[36m"
  | "white" => "\x1b[37m"
  | _ => ""

/-- The escape sequence that ends a colour. -/
def resetCode : String := "\x1b[0m"

/-- The text of a setting: texts as they are, lists with commas between their items. -/
def settingText : Tree → String
  | .text s => s
  | .array xs => String.intercalate "," (xs.map fun x => (x.text?).getD x.toJson)
  | t => t.toJson

/-- The settings of a configuration with their texts, under their written paths. -/
def entries (config : Tree) : List (String × String) :=
  config.decode.map fun (path, leaf) => (path.display, settingText leaf)

/-- A text with blanks up to a width. -/
def padded (width : Nat) (s : String) : String :=
  String.ofList (s.toList ++ List.replicate (width - s.length) ' ')

/-- The text at a path, empty when there is none. -/
def textAt (path : KeyPath) (config : Tree) : String :=
  ((config.getPath? path).bind Tree.text?).getD ""

/-- The lines that show a configuration. -/
def shownLines (config : Tree) : List String :=
  let color := colorCode (textAt ["display", "color"] config)
  let banner :=
    if config.getPath? ["verbose"] = some (.bool true) then
      let name := Text.quoted (textAt ["name"] config)
      [s!"{color}[verbose] Resolved configuration for {name}{resetCode}", ""]
    else []
  let rows := entries config
  let width := rows.foldl (fun w row => max w row.1.length) 0
  let line := fun (row : String × String) =>
    if textAt ["display", "format"] config = "plain" then s!"{row.1}={row.2}"
    else s!"{color}{padded width row.1}{resetCode}  {row.2}"
  banner ++ rows.map line

/-! ## Running -/

/-- The factories of the demo. -/
def presets : Except Error Registry := do
  let r ← Registry.empty.register "presets:prod" (.constant prodPreset)
  r.register "presets:quiet" (.constant quietPreset)

/-- Load the configuration of overlay arguments. -/
def loadConfig (mode : WholeTreeMode) (args : List String) : Action World Tree :=
  load World.sources mode true config.target args

/-- The arguments that lead from the defaults to a configuration. -/
def explain (mode : WholeTreeMode) (config : Tree) : Action World (List String) := do
  let defaults ← loadConfig mode []
  .ofExcept (defaults.diffWith .sequenceIfDifferent config).toArguments

/-- The lines that the demo shows. -/
def shown (words : Words) : Action World (List String) := do
  let args ← .ofExcept (overlayArguments words)
  let loaded ← loadConfig (mode words) args
  if words.has "explain" then explain (mode words) loaded else return shownLines loaded

/-- How a run of the program ends. -/
structure Outcome where
  code : Nat
  stdout : String
  stderr : String
deriving DecidableEq, Repr

/-- Lines as text. -/
def unlines (lines : List String) : String := String.join (lines.map (· ++ "\n"))

/-- The wording of a mistake in the options. -/
def usageMessage : UsageError → String
  | .help => "Usage: [--explain] [--merge-anywhere] [--port PORT] [OVERLAY]..."
  | .repeated long => s!"--{long} cannot be used multiple times"
  | .unexpectedValue long => s!"--{long} takes no value"
  | .missingValue long => s!"--{long} needs a value"
  | .invalidValue long => s!"invalid value for --{long}"

/-- Run the program on a command line and files. -/
def run (files : FileReader) (words : List String) : Outcome :=
  match CommandLine.split options words with
  | .error .help => ⟨0, unlines [usageMessage .help], ""⟩
  | .error e => ⟨2, "", unlines [usageMessage e]⟩
  | .ok words =>
    let outcome := do
      let registry ← presets
      ((shown words).run ⟨registry, files⟩).1
    match outcome with
    | .ok lines => ⟨0, unlines lines, ""⟩
    | .error e => ⟨1, "", unlines ["Failed to load config:", e.message]⟩

end ConfigOverlay.Demo
