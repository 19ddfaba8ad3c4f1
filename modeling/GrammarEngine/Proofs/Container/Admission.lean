import GrammarEngine.Proofs.Bundle.Calls
import GrammarEngine.Proofs.Container.RoundTrip

/-!
# Only consistent containers are restored

Whatever a container holds, a set is restored from it only if the container is consistent. Every
record of the manifest is checked on the way: its entry has to be a file directly below the
directory of its kind, a payload must have the recorded size and digest, and a source must be a
text. The checks of the parts exclude shared, orphaned and misnamed units, so that the set has the
invariant of bundle sets, and its classification is verified last.

Entries are read by any function from names to contents.
-/
namespace GrammarEngine.Container

variable {read : EntryReader} {k : NamingScheme} {s : BundleSet} {m : Manifest}
  {metadata : Metadata} {dir raw : String} {contents : List UInt8}

/-! ## Entries -/

/-- The contents of an entry directly below a directory. Cut at its slashes, the raw name has the
directory and one clean component as its parts, besides empty ones and single dots. -/
def HoldsBelow (read : EntryReader) (dir raw : String) (contents : List UInt8) : Prop :=
  ∃ file, EntryName.CleanPart file ∧
    EntryName.kept (EntryName.parts raw.toList) = [dir.toList, file] ∧
    read (String.ofList (dir.toList ++ '/' :: file)) = .ok contents

theorem holdsBelow_of_readIn (hdir : '/' ∉ dir.toList) (h : readIn read raw dir = .ok contents) :
    HoldsBelow read dir raw contents := by
  obtain ⟨name, hname, hread⟩ := bind_eq_ok.mp h
  obtain ⟨file, hfile, hkept, rfl⟩ :=
    EntryName.sanitizeIn_cases hdir (mapError_eq_ok.mp hname)
  exact ⟨file, hfile, hkept, hread⟩

/-! ## The manifest -/

/-- The document that a container has as its manifest is the one of a manifest. -/
structure HasManifest (read : EntryReader) (m : Manifest) : Prop where
  document : ∃ text j, read manifestEntry = .ok (Text.utf8 text) ∧
    Json.readDistinct? text = some j ∧ Manifest.ofJson? j = some m
  version : m.version = 1

theorem int_of_natUpTo? {bound n : Nat} {j : Json} (h : Json.natUpTo? bound j = some n) :
    j = .int n := by
  cases j with
  | int i =>
      obtain ⟨hrange, hn⟩ := Option.ite_none_right_eq_some.mp h
      obtain rfl := Option.some.inj hn
      rw [Int.toNat_of_nonneg hrange.1]
  | _ => cases h

theorem versionField_of_ofJson? {fields : List (String × Json)}
    (h : Manifest.ofJson? (.object fields) = some m) :
    Json.lookup? Manifest.versionField fields = some (.int m.version) := by
  simp only [Manifest.ofJson?, Json.record?, Option.bind_eq_bind, Option.bind_some,
    Option.bind_eq_some_iff] at h
  obtain ⟨j, hj, version, hversion, hrest⟩ := h
  have hm : m.version = version := by grind
  rw [hj, int_of_natUpTo? hversion, hm]

/-- The version that is checked is the one in the manifest: a document that names its version is an
object. -/
theorem version_of_ofJson? {j : Json} {found : Nat} (hfound : version? j = some found)
    (h : Manifest.ofJson? j = some m) : m.version = found := by
  obtain ⟨v, hv, hnat⟩ := Option.bind_eq_some_iff.mp hfound
  cases j with
  | object fields =>
      have hfield : v = .int m.version := by
        simpa [Json.field?, versionField_of_ofJson? h] using hv.symm
      rw [int_of_natUpTo? hnat] at hfield
      exact_mod_cast (Json.int.inj hfield).symm
  | _ => cases hv

theorem decodeManifest_cases {j : Json} (h : decodeManifest j = .ok m) :
    Manifest.ofJson? j = some m ∧ m.version = formatVersion := by
  unfold decodeManifest at h
  split at h
  · cases h
  · next found hfound =>
    split at h
    · next hversion =>
      split at h
      · next m' hm =>
        obtain rfl := Except.ok.inj h
        exact ⟨hm, (version_of_ofJson? hfound hm).trans (by simpa using hversion)⟩
      · cases h
    · cases h

theorem hasManifest_of_readManifest (h : readManifest read = .ok m) : HasManifest read m := by
  obtain ⟨name, hname, h⟩ := bind_eq_ok.mp h
  obtain rfl : manifestEntry = name := Except.ok.inj hname
  obtain ⟨raw, hread, h⟩ := bind_eq_ok.mp h
  split at h
  · next j hj =>
    obtain ⟨text, htext, hdocument⟩ := Option.bind_eq_some_iff.mp hj
    obtain ⟨hm, hversion⟩ := decodeManifest_cases h
    rw [Text.eq_utf8_of_ofUtf8? htext] at hread
    exact ⟨⟨text, j, hread, hdocument, hm⟩, hversion⟩
  · cases h

/-! ## Records -/

/-- A record vouches for a unit: the unit has the recorded name and flag, and its payload is the
contents of the recorded entry, of the recorded size and digest. -/
structure Vouches (read : EntryReader) (r : UnitRecord) (u : CompiledUnit) : Prop where
  name : u.name = r.name
  inner : u.inner = r.inner
  payload : HoldsBelow read unitsDir r.entry u.payload
  size : u.payload.length = r.size
  digest : Sha256.hexDigest u.payload = r.sha256

/-- A record describes a bundle, whose source is the text in the recorded entry. -/
structure Describes (read : EntryReader) (r : BundleRecord) (b : Bundle) : Prop where
  name : b.name = r.primary
  origin : b.source.origin = r.origin
  text : HoldsBelow read sourcesDir r.sourceEntry (Text.utf8 b.source.source)
  units : b.unitIds = r.primaryUnit :: r.innerUnits

theorem restoreUnit_cases {r : UnitRecord} {id : Nat} {u : CompiledUnit}
    (h : restoreUnit read (r, id) = .ok u) : r.id = id ∧ Vouches read r u := by
  unfold restoreUnit at h
  obtain ⟨hid, h⟩ := ite_throw_bind_eq_ok.mp h
  obtain ⟨payload, hpayload, h⟩ := bind_eq_ok.mp h
  obtain ⟨hchecks, h⟩ := ite_throw_bind_eq_ok.mp h
  obtain rfl := Except.ok.inj h
  simp only [Bool.or_eq_true, bne_iff_ne, not_or, not_not] at hchecks
  exact ⟨by simpa using hid, rfl, rfl, holdsBelow_of_readIn (by decide) hpayload, hchecks.1,
    hchecks.2⟩

theorem restoreBundle_cases {r : BundleRecord} {b : Bundle} (h : restoreBundle read r = .ok b) :
    Describes read r b := by
  unfold restoreBundle at h
  obtain ⟨raw, hraw, h⟩ := bind_eq_ok.mp h
  split at h
  · next text htext =>
    obtain rfl := Except.ok.inj h
    have hholds := holdsBelow_of_readIn (by decide) hraw
    exact ⟨rfl, rfl, Text.eq_utf8_of_ofUtf8? htext ▸ hholds, rfl⟩
  · cases h

/-- The records of units are numbered by their places. -/
theorem restoreUnits_cases {records : List UnitRecord} {units : List CompiledUnit} {n : Nat}
    (h : (records.zipIdx n).mapM (restoreUnit read) = .ok units) :
    records.map UnitRecord.id = List.range' n records.length ∧
      List.Forall₂ (Vouches read) records units := by
  induction records generalizing n units with
  | nil =>
      obtain rfl := Except.ok.inj h
      exact ⟨rfl, .nil⟩
  | cons r rest ih =>
      rw [List.zipIdx_cons, mapM_eq_ok, List.forall₂_cons_left_iff] at h
      obtain ⟨u, others, hunit, hothers, rfl⟩ := h
      obtain ⟨hid, hvouches⟩ := restoreUnit_cases hunit
      obtain ⟨hids, hrest⟩ := ih (mapM_eq_ok.mpr hothers)
      refine ⟨?_, .cons hvouches hrest⟩
      rw [List.map_cons, hid, hids, List.length_cons, List.range'_succ]

/-! ## Sets -/

/-- A set is restored only from a container that is consistent. The manifest has the version that is
read and numbers the units by their places; each unit and each source is the contents of an entry
directly below its directory, the payloads of the recorded size and digest, and the sources texts.
Units have different names and one bundle each, primary units are named like their bundles, inner
units are flagged inner, and the set passes the classification. -/
theorem restored_consistent (h : restoreWith read k = .ok (s, metadata)) :
    ∃ m, HasManifest read m ∧ m.metadata = metadata ∧
      m.units.map UnitRecord.id = List.range s.units.length ∧
      List.Forall₂ (Vouches read) m.units s.units ∧
      (∃ bundles, s.bundles.Perm bundles ∧ List.Forall₂ (Describes read) m.bundles bundles) ∧
      s.Sound ∧ s.verify k = .ok () := by
  obtain ⟨m, hmanifest, h⟩ := bind_eq_ok.mp h
  obtain ⟨t, hassemble, h⟩ := bind_eq_ok.mp h
  obtain ⟨rfl, rfl⟩ := Prod.mk.inj (Except.ok.inj h)
  obtain ⟨units, hunits, hassemble⟩ := bind_eq_ok.mp hassemble
  obtain ⟨bundles, hbundles, hassemble⟩ := bind_eq_ok.mp hassemble
  obtain ⟨u, hparts, hassemble⟩ := bind_eq_ok.mp hassemble
  obtain ⟨_, hverify, hassemble⟩ := bind_eq_ok.mp hassemble
  obtain rfl := Except.ok.inj hassemble
  obtain ⟨hids, hvouches⟩ := restoreUnits_cases hunits
  have hdescribes : List.Forall₂ (Describes read) m.bundles bundles :=
    (mapM_eq_ok.mp hbundles).imp fun _ _ => restoreBundle_cases
  rw [mapError_eq_ok] at hparts hverify
  obtain ⟨rfl, hconsistent⟩ := BundleSet.consistent_of_ofParts hparts
  rw [hvouches.length_eq, ← List.range_eq_range'] at hids
  exact ⟨m, hasManifest_of_readManifest hmanifest, rfl, hids, hvouches,
    ⟨bundles, BundleSet.perm_of_ofParts hparts, hdescribes⟩, hconsistent.sound, hverify⟩

def letterEntries : EntryReader :=
  ofArchive (Archive.ofContents (pack letterSet letterMetadata newYear))

theorem letterEntries_consistent :
    restoreWith letterEntries Classifier.bare = .ok (letterSet, letterMetadata) ∧
      ∃ m, HasManifest letterEntries m ∧ m.metadata = letterMetadata ∧
        m.units.map UnitRecord.id = List.range letterSet.units.length ∧
        List.Forall₂ (Vouches letterEntries) m.units letterSet.units ∧
        (∃ bundles, letterSet.bundles.Perm bundles ∧
          List.Forall₂ (Describes letterEntries) m.bundles bundles) ∧
        letterSet.Sound ∧ letterSet.verify Classifier.bare = .ok () := by
  have hbuilt := (BundleSet.compile_verified letterSet_compiled).1
  have hreads : Reads letterEntries (pack letterSet letterMetadata newYear) :=
    reads_ofContents (nodup_pack letterSet letterMetadata newYear Json.print)
  have hrestored : restoreWith letterEntries Classifier.bare = .ok (letterSet, letterMetadata) :=
    restoreWith_eq_ok (l := .plain) hbuilt.consistent (by decide) letterSet_kept hreads
  exact ⟨hrestored, restored_consistent hrestored⟩

end GrammarEngine.Container
