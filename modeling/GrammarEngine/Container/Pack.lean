import GrammarEngine.Container.Manifest
import GrammarEngine.Digest.Sha256
import GrammarEngine.Json.Printer
import GrammarEngine.Text.Utf8

/-!
# Packing bundle sets

A bundle set becomes a list of entries: the manifest, the source text of every bundle, the payload
of every unit, and a summary to read. Sources are numbered in the order of their bundles and
payloads by the numbers of their units.
-/
namespace GrammarEngine.Container

def manifestEntry : String := "manifest.json"

def summaryEntry : String := "readme.md"

def sourcesDir : String := "sources"

def unitsDir : String := "units"

def sourceEntry (n : Nat) : String := sourcesDir ++ "/" ++ toString n ++ ".src"

def unitEntry (id : Nat) : String := unitsDir ++ "/" ++ toString id ++ ".bin"

def unitRecord (u : CompiledUnit) (id : Nat) : UnitRecord :=
  ⟨id, u.name, u.inner, u.size, Sha256.hexDigest u.payload, unitEntry id⟩

def bundleRecord (b : Bundle) (n : Nat) : BundleRecord :=
  ⟨b.name, b.source.origin, sourceEntry n, b.primary, b.inner⟩

/-- The manifest of a set. -/
def manifest (s : BundleSet) (metadata : Metadata) (createdAt : String) : Manifest where
  version := formatVersion
  createdAt := createdAt
  generator := generatorName
  metadata := metadata
  bundles := s.bundles.zipIdx.map fun (b, n) => bundleRecord b n
  units := s.units.zipIdx.map fun (u, id) => unitRecord u id

/-- The line of the summary that describes a bundle. -/
def bundleLine (b : BundleRecord) : String :=
  "- `" ++ b.primary ++ "` (" ++ b.origin.title ++ "): " ++ toString b.innerUnits.length ++
    " inner unit(s)\n"

def summaryLine (label content : String) : String := "- **" ++ label ++ "**: " ++ content ++ "\n"

/-- The summary of a manifest. -/
def summary (m : Manifest) : String :=
  "# Compiled recognizer bundle\n\n## Metadata\n\n" ++
    summaryLine "Grammar" m.metadata.grammarName ++
    summaryLine "Format version" (toString m.version) ++
    summaryLine "Created" m.createdAt ++
    summaryLine "Generator" m.generator ++
    summaryLine "Lexer" (m.metadata.lexer.getD "default") ++
    summaryLine "Parser" (m.metadata.parser.getD "default") ++
    summaryLine "Entry rule" (m.metadata.entryRule.getD "default") ++
    summaryLine "Case folding" m.metadata.folding.name ++
    "\n## Bundles\n\n" ++ String.join (m.bundles.map bundleLine) ++
    s!"\n{m.units.length} unit(s), {m.totalSize} bytes of payload.\n"

def sourceContents (s : BundleSet) : List (String × List UInt8) :=
  s.bundles.zipIdx.map fun (b, n) => (sourceEntry n, Text.utf8 b.source.source)

def unitContents (s : BundleSet) : List (String × List UInt8) :=
  s.units.zipIdx.map fun (u, id) => (unitEntry id, u.payload)

/-- The entries of a set, in order. -/
def pack (s : BundleSet) (metadata : Metadata) (createdAt : String)
    (print : Json → String := Json.print) : List (String × List UInt8) :=
  let m := manifest s metadata createdAt
  [(manifestEntry, Text.utf8 (print m.toJson))] ++ sourceContents s ++ unitContents s ++
    [(summaryEntry, Text.utf8 (summary m))]

end GrammarEngine.Container
