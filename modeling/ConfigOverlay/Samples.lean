import ConfigOverlay.Target
import ConfigOverlay.Tree.Edit

/-!
# Sample targets

Small types that together use every feature of schemas: a closed record with defaults, a tagged
object inside a record, and configurations with nested sections, optional and required settings,
lists of records and dictionaries.
-/

namespace ConfigOverlay.Samples

open Schema

/-! ## Value targets -/

/-- Limits, all with defaults, and no other fields. -/
def limits : Shape := .record "Limits" true [
  .mk "workers" .uint32 (some (.ofInt 0)),
  .mk "ratio" .binary64 (some (.ofFloat (some .zero)))]

/-- An endpoint is a host and port or a socket. -/
def endpoint : Shape := .tagged "Endpoint" "_type_" [
  .mk "tcp" "Tcp" [.mk "host" .text none, .mk "port" .uint16 none],
  .mk "unix" "Unix" [.mk "socket" .text none]]

/-- A named service at an endpoint. -/
def service : Shape := .record "Service" false [
  .mk "name" .text none,
  .mk "endpoint" endpoint none,
  .mk "tags" (.list .text) (some (.array []))]

/-- An item of an application. -/
def item : Shape := .record "Item" false [
  .mk "name" .text none,
  .mk "size" .uint8 (some (.ofInt 0))]

/-! ## Services -/

/-- An endpoint at a host and port. -/
def tcpEndpoint (host : String) (port : Int) : Tree :=
  .object [("_type_", .text "tcp"), ("host", .text host), ("port", .ofInt port)]

/-- An endpoint at a socket. -/
def unixEndpoint (socket : String) : Tree :=
  .object [("_type_", .text "unix"), ("socket", .text socket)]

/-- A small service on the local host. -/
def smallService : Tree := .object [
  ("name", .text "small"),
  ("endpoint", tcpEndpoint "localhost" 8080),
  ("tags", .array [.text "dev"])]

/-- Move a service to another port, if its endpoint has one. -/
def setPort (port : Int) (t : Tree) : Tree :=
  match t.getPath? ["endpoint", "_type_"] with
  | some (.text "tcp") => Tree.assign ["endpoint", "port"] (.ofInt port) t
  | _ => t

/-! ## Configuration targets -/

/-- Settings of a database. -/
def database : Section := .mk "TestDbConfig" [
  .value "url" .text .optional,
  .value "pool_size" .size (.defaulted (.ofInt 5))]

/-- A server with a database. -/
def server : Section := .mk "TestConfig" [
  .value "host" .text (.defaulted (.text "localhost")),
  .value "port" .uint16 (.defaulted (.ofInt 8080)),
  .value "debug" .bool (.defaulted (.bool false)),
  .nested "database" database]

/-- Settings of an authentication. -/
def auth : Section := .mk "AuthConfig" [
  .value "token" .text .required,
  .value "mode" .text (.defaulted (.text "basic"))]

/-- An application with lists, dictionaries and required settings. -/
def app : Section := .mk "AppConfig" [
  .value "id" .int32 .required,
  .value "ratio" .binary64 (.defaulted (.ofFloat (Binary64.ofDecimal? false 5 (-1)))),
  .value "items" (.list item) (.defaulted (.array [])),
  .value "labels" (.dictionary .int64) (.defaulted (.object [])),
  .value "endpoint" endpoint .optional,
  .nested "auth" auth]

end ConfigOverlay.Samples
