import Abridge.Json.Decode
import Abridge.Manifest.Basic

/-!
# Manifests as documents

The written form of a manifest: an object with the fields in a fixed order, indented by two blanks.
The list of modules is left out when it is empty, and every other field is required.
-/

set_option autoImplicit false

namespace Abridge

namespace Savings

/-- The fields of the savings, in order. -/
def fieldNames : List String :=
  ["totalOptimizations", "originalSize", "optimizedSize", "reductionPercent"]

/-- The document of the savings. -/
def toJson (s : Savings) : Json :=
  .object
    [("totalOptimizations", .number (.integer s.substitutions)),
     ("originalSize", .number (.integer s.sizeBefore)),
     ("optimizedSize", .number (.integer s.sizeAfter)),
     ("reductionPercent", .number (.float s.reductionPercent))]

/-- Savings from their document. -/
def ofJson? (v : Json) : Option Savings := do
  let fields ← v.record? fieldNames
  let substitutions ← Json.required? fields "totalOptimizations" Json.asSize?
  let sizeBefore ← Json.required? fields "originalSize" Json.asSize?
  let sizeAfter ← Json.required? fields "optimizedSize" Json.asSize?
  let reductionPercent ← Json.required? fields "reductionPercent" Json.asDouble?
  return { substitutions, sizeBefore, sizeAfter, reductionPercent }

end Savings

namespace ModuleRecord

/-- The fields of a module's account, in order. -/
def fieldNames : List String :=
  ["path", "sourceHash", "originalSize", "optimizedSize", "substitutions"]

/-- The document of a module's account. -/
def toJson (r : ModuleRecord) : Json :=
  .object
    [("path", .string r.path), ("sourceHash", .string r.sourceHash),
     ("originalSize", .number (.integer r.sizeBefore)),
     ("optimizedSize", .number (.integer r.sizeAfter)),
     ("substitutions", .number (.integer r.substitutions))]

/-- A module's account from its document. -/
def ofJson? (v : Json) : Option ModuleRecord := do
  let fields ← v.record? fieldNames
  let path ← Json.required? fields "path" Json.asString?
  let sourceHash ← Json.required? fields "sourceHash" Json.asString?
  let sizeBefore ← Json.required? fields "originalSize" Json.asSize?
  let sizeAfter ← Json.required? fields "optimizedSize" Json.asSize?
  let substitutions ← Json.required? fields "substitutions" Json.asSize?
  return { path, sourceHash, sizeBefore, sizeAfter, substitutions }

end ModuleRecord

namespace Manifest

/-- The document of a table of texts. -/
def textTable (table : Table String String) : Json :=
  .object (table.map fun (key, text) => (key, .string text))

/-- The fields of a manifest, in order. -/
def fieldNames : List String :=
  ["version", "timestamp", "categories", "strings", "numbers", "stats", "modules"]

/-- The document of a manifest. -/
def toJson (m : Manifest) : Json :=
  .object <|
    [("version", .string m.version),
     ("timestamp", .string m.timestamp),
     ("categories", .object (m.categories.map fun (name, table) => (name, textTable table))),
     ("strings", textTable m.strings),
     ("numbers", .object (m.numbers.map fun (key, n) => (key, .number n))),
     ("stats", m.savings.toJson)] ++
    if m.modules.isEmpty then [] else [("modules", .array (m.modules.map ModuleRecord.toJson))]

/-- A manifest from its document. -/
def ofJson? (v : Json) : Option Manifest := do
  let fields ← v.record? fieldNames
  let version ← Json.required? fields "version" Json.asString?
  let timestamp ← Json.required? fields "timestamp" Json.asString?
  let categories ←
    Json.required? fields "categories" (Json.asTable? (Json.asTable? Json.asString?))
  let strings ← Json.required? fields "strings" (Json.asTable? Json.asString?)
  let numbers ← Json.required? fields "numbers" (Json.asTable? Json.asNumber?)
  let savings ← Json.required? fields "stats" Savings.ofJson?
  let modules ← Json.optional? fields "modules" (Json.asList? ModuleRecord.ofJson?) []
  return { version, timestamp, categories, strings, numbers, savings, modules }

/-- The text of a manifest, as it is written to disk. -/
def text (m : Manifest) : String := m.toJson.pretty

/-- A manifest from its text. -/
def ofText? (text : String) : Option Manifest := Json.parse? text >>= ofJson?

/-- The size of the text in bytes. -/
def byteSize (m : Manifest) : Nat := m.text.utf8ByteSize

end Manifest

end Abridge
