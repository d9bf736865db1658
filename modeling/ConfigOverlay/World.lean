import ConfigOverlay.Compile.Basic
import ConfigOverlay.Document.Toml.Document
import ConfigOverlay.Document.Yaml.Document
import ConfigOverlay.Registry

/-!
# The world of a program

A program looks up factories in its registry and documents in its files. The registry counts
calls, the files never change. A document is read as a whole and understood in the language of its
format.
-/

namespace ConfigOverlay

/-! ## Loading documents -/

/-- The tree of a document. -/
def DocumentFormat.parse (format : DocumentFormat) (text : String) : Except DocumentFault Tree :=
  match format with
  | .json => (Json.parse text).mapError .json
  | .toml => (Toml.parse? text).elim (.error .toml) .ok
  | .yaml => (Yaml.parse? text).elim (.error .yaml) .ok

/-- Load the document at a path. -/
def loadDocument (files : FileReader) (path : String) : Except Error Tree := do
  let text ← (files.text path).mapError (.unreadableFile path)
  ((DocumentFormat.ofPath path).parse text).mapError (.malformedDocument path)

/-! ## The sources of a program -/

/-- A registry and files. -/
structure World where
  registry : Registry
  files : FileReader

namespace World

/-- Run a factory, keeping the count of its calls. -/
def factory (id : String) : Action World Tree := fun w =>
  let (outcome, registry) := w.registry.resolve id
  (outcome, { w with registry := registry })

/-- Load a document. -/
def document (path : String) : Action World Tree := fun w => (loadDocument w.files path, w)

/-- The sources of a program. -/
def sources : Sources World := ⟨document, factory⟩

end World

end ConfigOverlay
