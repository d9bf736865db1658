import ConfigOverlay.Target

/-!
# The configuration of the demo

A server with a name, a list of hosts that may connect, and settings for its address and its
display, all with defaults.
-/

namespace ConfigOverlay.Demo

open Schema

/-- The address of the server. -/
def server : Section := .mk "ServerConfig" [
  .value "host" .text (.defaulted (.text "127.0.0.1")),
  .value "port" .uint16 (.defaulted (.ofInt 3000)),
  .value "max_connections" .uint32 (.defaulted (.ofInt 100))]

/-- The looks of the output. -/
def display : Section := .mk "DisplayConfig" [
  .value "color" .text (.defaulted (.text "yellow")),
  .value "format" .text (.defaulted (.text "pretty"))]

/-- The whole configuration. -/
def config : Section := .mk "DemoConfig" [
  .value "name" .text (.defaulted (.text "layerfig-demo")),
  .value "verbose" .bool (.defaulted (.bool false)),
  .value "allow" (.list .text) (.defaulted (.array [.text "127.0.0.1"])),
  .nested "server" server,
  .nested "display" display]

/-- The path of the port. -/
def portPath : KeyPath := ["server", "port"]

/-! ## Presets -/

/-- The preset of a public server. -/
def prodPreset : Tree := .object [
  ("name", .text "prod"),
  ("allow", .array [.text "10.0.0.0/8"]),
  ("server", .object [
    ("host", .text "0.0.0.0"),
    ("port", .ofInt 443),
    ("max_connections", .ofInt 10000)])]

/-- The preset of a plain display. -/
def quietPreset : Tree := .object [("color", .text "white"), ("format", .text "plain")]

end ConfigOverlay.Demo
