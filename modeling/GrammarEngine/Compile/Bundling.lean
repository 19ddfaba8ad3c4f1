import GrammarEngine.Bundle.Basic
import GrammarEngine.Compile.Parser
import GrammarEngine.Image.Encoding

/-!
# Compiling units into bundles

The compiler of the unit notation reads all units first, so that units may refer to each other, and
then compiles each of them into encoded images. The images of any compiler are grouped into bundles
by their names: the image of a submitted unit's own name is its primary one, every other belongs to
the longest unit name that classifies it. Either every unit compiles or there is no result.
-/
namespace GrammarEngine

/-- A named payload. -/
structure Artifact where
  name : String
  payload : List UInt8
deriving Repr, DecidableEq

/-- What a compiler makes of a list of units. -/
structure CompilerOutput where
  artifacts : List Artifact := []
  diagnostics : List Diagnostic := []
deriving Repr, DecidableEq

/-- A compiler takes all units together. -/
abbrev Compiler := List UnitSource → CompilerOutput

namespace Compiler

/-- The declaration in a unit source, which must bear the source's name. -/
def declaration (u : UnitSource) : Except Diagnostic UnitDecl :=
  match UnitDecl.read u.source with
  | .error (p, fault) => .error (.ofFault u.name (p, .declaration fault))
  | .ok d =>
    if d.name == u.name then .ok d
    else .error (.ofFault u.name (d.position, .misnamed d.name u.name))

def compileUnit (index : UnitIndex) : UnitDecl → Except (List CompileFault.Located) NamedImages
  | .lexer d => d.compile index
  | .parser d => d.compile index
  | .library d => d.compile

def unitOutput (index : UnitIndex) (d : UnitDecl) : CompilerOutput :=
  match compileUnit index d with
  | .ok images => { artifacts := images.map fun i => ⟨i.1, Image.encode i.2⟩ }
  | .error faults => { diagnostics := faults.map (Diagnostic.ofFault d.name) }

/-- The compiler of the unit notation. -/
def units : Compiler := fun sources =>
  let declared := sources.map declaration
  let faults := declared.filterMap fun
    | .error d => some d
    | .ok _ => none
  let decls := LexerDecl.values declared
  let outputs := decls.map (unitOutput decls)
  { artifacts := outputs.flatMap CompilerOutput.artifacts
    diagnostics := faults ++ outputs.flatMap CompilerOutput.diagnostics }

end Compiler

inductive CompilationError where
  | noUnits
  | duplicateUnit (name : String)
  | failed (diagnostics : List Diagnostic)
  | missingPrimary (name : String)
  | orphanArtifact (name : String)
  | bundle (error : BundleError)
deriving Repr, DecidableEq

def CompilationError.message : CompilationError → String
  | noUnits => "No source units to compile"
  | duplicateUnit name => s!"Source unit {name} submitted more than once"
  | failed diagnostics =>
    "Compilation failed:\n" ++ String.intercalate "\n" (diagnostics.map Diagnostic.line)
  | missingPrimary name => s!"Compiler produced no artifact for unit {name}"
  | orphanArtifact name =>
    s!"Compiler produced artifact {name} that belongs to no submitted unit"
  | bundle error => s!"Invalid compiler output: {error.message}"

namespace BundleSet

/-- The first name that an earlier source has. -/
def firstRepeatedSource? : List String → List UnitSource → Option String
  | _, [] => none
  | seen, u :: rest =>
    if seen.contains u.name then some u.name else firstRepeatedSource? (u.name :: seen) rest

/-- Take the first artifact of a name out of a list. -/
def takeArtifact? (name : String) : List Artifact → Option (Artifact × List Artifact)
  | [] => none
  | a :: rest =>
    if a.name == name then some (a, rest)
    else (takeArtifact? name rest).map fun (found, others) => (found, a :: others)

def liftBundle {α : Type} (r : Except BundleError α) : Except CompilationError α :=
  r.mapError .bundle

/-- Add a bundle for every source; what remains are the inner artifacts. -/
def addPrimaries : List UnitSource → List Artifact → BundleSet →
    Except CompilationError (List Artifact × BundleSet)
  | [], artifacts, s => .ok (artifacts, s)
  | u :: rest, artifacts, s =>
    match takeArtifact? u.name artifacts with
    | none => .error (.missingPrimary u.name)
    | some (a, others) => do
      let (_, s) ← liftBundle (s.insertBundle u a.payload)
      addPrimaries rest others s

/-- The name that classifies an artifact, the longest one if there are several. -/
def ownerOf? (k : NamingScheme) (names : List String) (artifact : String) : Option String :=
  (names.filter fun n => k.isInner n artifact).foldl (fun best n =>
    match best with
    | none => some n
    | some b => if b.utf8ByteSize ≤ n.utf8ByteSize then some n else some b) none

def addArtifact (k : NamingScheme) (names : List String) (s : BundleSet) (a : Artifact) :
    Except CompilationError BundleSet :=
  match ownerOf? k names a.name with
  | none => .error (.orphanArtifact a.name)
  | some owner => (liftBundle (s.addInner owner a.name a.payload)).map Prod.snd

/-- Group artifacts into bundles of the sources. -/
def group (k : NamingScheme) (sources : List UnitSource) (artifacts : List Artifact) :
    Except CompilationError BundleSet := do
  let (inner, s) ← addPrimaries sources artifacts {}
  inner.foldlM (addArtifact k (sources.map UnitSource.name)) s

/-- Compile units together and group what becomes of them. -/
def compile (compiler : Compiler) (k : NamingScheme) (sources : List UnitSource) :
    Except CompilationError BundleSet := do
  if sources.isEmpty then throw .noUnits
  if let some name := firstRepeatedSource? [] sources then throw (.duplicateUnit name)
  let output := compiler sources
  let errors := output.diagnostics.filter Diagnostic.isError
  if !errors.isEmpty then throw (.failed errors)
  group k sources output.artifacts

end BundleSet

end GrammarEngine
