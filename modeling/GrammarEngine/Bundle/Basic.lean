import GrammarEngine.Bundle.Classifier
import GrammarEngine.Unit.Source

/-!
# Bundle sets

A bundle holds what became of one unit source: its primary unit, which bears the source's name, and
its inner units. A bundle set keeps all units in one arena, where their numbers are their places,
and its bundles sorted by the names of their sources.

Sets grow by whole bundles and by inner units of bundles that are there; a call that fails leaves
the set as it was. A set can also be put together from given parts, which are then checked.
-/
namespace GrammarEngine

/-- A payload under its unit's name; `inner` marks the units that are not primary. -/
structure CompiledUnit where
  name : String
  payload : List UInt8
  inner : Bool
deriving Repr, DecidableEq

def CompiledUnit.size (u : CompiledUnit) : Nat := u.payload.length

/-- A source with the numbers of its primary unit and its inner units. -/
structure Bundle where
  source : UnitSource
  primary : Nat
  inner : List Nat
deriving Repr, DecidableEq

namespace Bundle

def name (b : Bundle) : String := b.source.name

/-- The numbers of all units of a bundle, the primary one first. -/
def unitIds (b : Bundle) : List Nat := b.primary :: b.inner

def contains (b : Bundle) (id : Nat) : Bool := b.unitIds.contains id

end Bundle

/-- The ways in which a unit is not where its flag or its name puts it. -/
inductive Misplacement where
  | notPrimary (bundle : String)
  | notInner (bundle : String)
  | belongsTo (bundle : String)
  | flaggedPrimary
deriving Repr, DecidableEq

def Misplacement.message : Misplacement → String
  | notPrimary bundle => s!"not the primary unit of {bundle}"
  | notInner bundle => s!"not an inner unit of {bundle}"
  | belongsTo bundle => s!"belongs to {bundle}"
  | flaggedPrimary => "listed as inner but flagged primary"

inductive BundleError where
  | duplicateBundle (name : String)
  | duplicateUnit (name : String)
  | unknownBundle (name : String)
  | unknownUnit (id : Nat)
  | sharedUnit (name : String)
  | orphanUnit (name : String)
  | misclassified (unit : String) (reason : Misplacement)
deriving Repr, DecidableEq

def BundleError.message : BundleError → String
  | duplicateBundle name => s!"Duplicate bundle: {name}"
  | duplicateUnit name => s!"Duplicate unit name: {name}"
  | unknownBundle name => s!"Unknown bundle: {name}"
  | unknownUnit id => s!"Unit id {id} is out of range"
  | sharedUnit name => s!"Unit {name} is claimed by more than one bundle"
  | orphanUnit name => s!"Unit {name} does not belong to any bundle"
  | misclassified unit reason => s!"Unit {unit} is misclassified: {reason.message}"

structure BundleSet where
  units : List CompiledUnit := []
  bundles : List Bundle := []
deriving Repr, DecidableEq, Inhabited

namespace BundleSet

/-! ## Looking up -/

def unit? (s : BundleSet) (id : Nat) : Option CompiledUnit := s.units[id]?

def hasUnit (s : BundleSet) (name : String) : Bool := s.units.any fun u => u.name == name

/-- The number and the unit of a name. -/
def unitByName? (s : BundleSet) (name : String) : Option (Nat × CompiledUnit) :=
  match s.units.findIdx? fun u => u.name == name with
  | some i => (s.units[i]?).map fun u => (i, u)
  | none => none

def bundle? (s : BundleSet) (name : String) : Option Bundle :=
  s.bundles.find? fun b => b.name == name

/-- The bundle that holds a unit. -/
def bundleOf? (s : BundleSet) (id : Nat) : Option Bundle := s.bundles.find? fun b => b.contains id

def size (s : BundleSet) : Nat := s.bundles.length

def unitCount (s : BundleSet) : Nat := s.units.length

def totalSize (s : BundleSet) : Nat := s.units.foldl (fun size u => size + u.size) 0

/-! ## Growing -/

/-- Insert a bundle before the first one of a greater name. -/
def insertSorted (b : Bundle) : List Bundle → List Bundle
  | [] => [b]
  | c :: rest => if b.name < c.name then b :: c :: rest else c :: insertSorted b rest

def pushUnit (s : BundleSet) (u : CompiledUnit) : Except BundleError (Nat × BundleSet) :=
  if s.hasUnit u.name then .error (.duplicateUnit u.name)
  else .ok (s.units.length, { s with units := s.units ++ [u] })

/-- Add a source with the payload of its primary unit; the result holds that unit's number. -/
def insertBundle (s : BundleSet) (source : UnitSource) (payload : List UInt8) :
    Except BundleError (Nat × BundleSet) :=
  if (s.bundle? source.name).isSome then .error (.duplicateBundle source.name)
  else
    (s.pushUnit ⟨source.name, payload, false⟩).map fun (id, s) =>
      (id, { s with bundles := insertSorted ⟨source, id, []⟩ s.bundles })

/-- Give a unit to the bundle of a name. -/
def give (owner : String) (id : Nat) (b : Bundle) : Bundle :=
  if b.name == owner then { b with inner := b.inner ++ [id] } else b

/-- Add an inner unit to the bundle of a name. -/
def addInner (s : BundleSet) (bundle name : String) (payload : List UInt8) :
    Except BundleError (Nat × BundleSet) :=
  if (s.bundle? bundle).isNone then .error (.unknownBundle bundle)
  else
    (s.pushUnit ⟨name, payload, true⟩).map fun (id, s) =>
      (id, { s with bundles := s.bundles.map (give bundle id) })

/-! ## Assembling -/

/-- The first name that an earlier unit has. -/
def firstRepeated? : List String → List CompiledUnit → Option String
  | _, [] => none
  | seen, u :: rest =>
    if seen.contains u.name then some u.name else firstRepeated? (u.name :: seen) rest

/-- Mark a unit as belonging to a bundle, where no bundle has it yet. -/
def claim (units : List CompiledUnit) (claimed : List Nat) (id : Nat) :
    Except BundleError (List Nat) :=
  match units[id]? with
  | none => .error (.unknownUnit id)
  | some u => if claimed.contains id then .error (.sharedUnit u.name) else .ok (id :: claimed)

def notPrimary (u : CompiledUnit) (bundle : String) : BundleError :=
  .misclassified u.name (.notPrimary bundle)

/-- Whether a unit may be the primary unit of a bundle. -/
def isPrimaryOf (u : CompiledUnit) (bundle : String) : Bool := !u.inner && u.name == bundle

/-- A bundle table under construction and the numbers of the units in it. -/
structure Assembly where
  bundles : List Bundle := []
  claimed : List Nat := []

def checkPrimary (units : List CompiledUnit) (b : Bundle) : Except BundleError Unit :=
  match units[b.primary]? with
  | none => .error (.unknownUnit b.primary)
  | some u => if isPrimaryOf u b.name then .ok () else .error (notPrimary u b.name)

/-- The first listed unit that is not flagged inner. -/
def firstUnflagged? (units : List CompiledUnit) (ids : List Nat) : Option CompiledUnit :=
  ids.findSome? fun id => (units[id]?).bind fun u => if u.inner then none else some u

def addPart (units : List CompiledUnit) (a : Assembly) (b : Bundle) :
    Except BundleError Assembly := do
  if a.bundles.any fun c => c.name == b.name then throw (.duplicateBundle b.name)
  let claimed ← b.unitIds.foldlM (claim units) a.claimed
  checkPrimary units b
  if let some u := firstUnflagged? units b.inner then
    throw (.misclassified u.name .flaggedPrimary)
  return ⟨insertSorted b a.bundles, claimed⟩

/-- The first unit that no bundle has. -/
def firstOrphan? (units : List CompiledUnit) (claimed : List Nat) : Option CompiledUnit :=
  ((List.range units.length).find? fun id => !claimed.contains id).bind fun id => units[id]?

/-- A set of given units and bundles, if they fit together. -/
def ofParts (units : List CompiledUnit) (bundles : List Bundle) : Except BundleError BundleSet := do
  if let some name := firstRepeated? [] units then throw (.duplicateUnit name)
  let a ← bundles.foldlM (addPart units) {}
  if let some u := firstOrphan? units a.claimed then throw (.orphanUnit u.name)
  return ⟨units, a.bundles⟩

/-! ## Classification -/

/-- A bundle with a longer name that also takes a unit for its own. -/
def longerOwner? (s : BundleSet) (k : NamingScheme) (b : Bundle) (u : CompiledUnit) :
    Option Bundle :=
  s.bundles.find? fun c =>
    b.name.utf8ByteSize < c.name.utf8ByteSize && k.isInner c.name u.name

def verifyUnit (s : BundleSet) (k : NamingScheme) (b : Bundle) (id : Nat) :
    Except BundleError Unit :=
  match s.unit? id with
  | none => .error (.unknownUnit id)
  | some u =>
    if id == b.primary then
      if isPrimaryOf u b.name then .ok () else .error (notPrimary u b.name)
    else if !u.inner || !k.isInner b.name u.name then
      .error (.misclassified u.name (.notInner b.name))
    else match s.longerOwner? k b u with
      | some c => .error (.misclassified u.name (.belongsTo c.name))
      | none => .ok ()

/-- Whether every unit is where a naming scheme puts it. -/
def verify (s : BundleSet) (k : NamingScheme) : Except BundleError Unit :=
  s.bundles.forM fun b => b.unitIds.forM (s.verifyUnit k b)

end BundleSet

end GrammarEngine
