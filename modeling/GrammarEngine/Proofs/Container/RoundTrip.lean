import GrammarEngine.Container.Restore
import GrammarEngine.Proofs.Archive.EntryNames
import GrammarEngine.Proofs.Archive.RoundTrip
import GrammarEngine.Proofs.Bundle.Classification
import GrammarEngine.Proofs.Json.Documents

/-!
# Stored sets are restored

A set that has grown from the empty one is restored from its container unit by unit and bundle by
bundle, under every naming scheme that its classification passes. The names of its entries differ
and are clean, so each record finds the entry that was written for it; sizes and digests agree
because the payload does; and the parts of a consistent set make up the set again.

Of the archive and of the notation of documents only one thing is needed: what is written is read
back. It holds of every set for which the archive has room. A manifest is read back from its
document, and the document from its printed form, if the numbers in it fit the words that hold them
and its time of creation is one.
-/
namespace GrammarEngine

/-! ## Manifests survive their notation -/

variable {α : Type} {depth : Nat}

namespace Json

theorem listOf?_map {read : Json → Option α} {write : α → Json} {xs : List α}
    (h : ∀ x ∈ xs, read (write x) = some x) : listOf? read (.list (xs.map write)) = some xs := by
  unfold listOf?
  induction xs with
  | nil => rfl
  | cons x xs ih =>
      obtain ⟨hx, hxs⟩ := List.forall_mem_cons.mp h
      simp only [List.map_cons, List.mapM_cons, hx, ih hxs, Option.bind_eq_bind, Option.bind_some]
      rfl

theorem natUpTo?_nat {bound n : Nat} (h : n ≤ bound) : natUpTo? bound (.nat n) = some n := by
  simp [natUpTo?, Json.nat, h]

theorem orNull?_optional (a : Option String) : (optional text a).orNull? text? = some a := by
  cases a <;> rfl

theorem readable_nat {n : Nat} (h : n < wordBound) : Readable depth (.nat n) := by
  simp only [wordBound] at h
  apply Readable.int
  · simp only [minInt]
    omega
  · simp only [maxInt]
    omega

theorem readable_optional (depth : Nat) (a : Option String) : Readable depth (optional text a) := by
  cases a with
  | none => exact .null depth
  | some s => exact .text depth s

/-- Every item of a list that is written item by item. -/
theorem readable_list {write : α → Json} {xs : List α} (h : ∀ x ∈ xs, Readable depth (write x)) :
    Readable (depth + 1) (.list (xs.map write)) := by
  apply Readable.list
  intro j hj
  obtain ⟨x, hx, rfl⟩ := List.mem_map.mp hj
  exact h x hx

end Json

open Json

/-! ### Records -/

namespace Metadata

theorem ofJson?_toJson (m : Metadata) : ofJson? m.toJson = some m := by
  have hfiles : Json.listOf? text? (.list (m.grammarFiles.map .text)) = some m.grammarFiles :=
    listOf?_map fun _ _ => rfl
  have hfolding : folding? (.text m.folding.name) = some m.folding := CaseFolding.ofName?_name _
  simp [ofJson?, toJson, record?, lookup?, name?, orNull?_optional, hfiles, hfolding]
  rfl

theorem readable (m : Metadata) (depth : Nat) : Readable (depth + 2) m.toJson := by
  apply Readable.object
  · simp only [List.forall_mem_cons, List.not_mem_nil, false_implies, implies_true, and_true]
    exact ⟨.text _ _, readable_list fun s _ => .text _ s, readable_optional _ _,
      readable_optional _ _, readable_optional _ _, .text _ _⟩
  · exact (by decide : names.Nodup)

end Metadata

namespace BundleRecord

/-- The numbers of a record are words of thirty-two bits. -/
structure Recordable (b : BundleRecord) : Prop where
  primary : b.primaryUnit ≤ 0xffffffff
  inner : ∀ id ∈ b.innerUnits, id ≤ 0xffffffff

variable {b : BundleRecord}

theorem Recordable.ofJson?_toJson (h : b.Recordable) : ofJson? b.toJson = some b := by
  have horigin : origin? (.text b.origin.name) = some b.origin := by
    cases b.origin <;> rfl
  have hprimary : unitNumber? (.nat b.primaryUnit) = some b.primaryUnit :=
    natUpTo?_nat h.primary
  have hinner : Json.listOf? unitNumber? (.list (b.innerUnits.map .nat)) = some b.innerUnits :=
    listOf?_map fun id hid => natUpTo?_nat (h.inner id hid)
  simp only [ofJson?, record?, toJson, text?, lookup?, String.reduceBEq, BEq.rfl,
    Bool.false_eq_true, if_false, if_true, Option.or_self, Option.or_some, Option.or_none,
    Option.getD_none, Option.pure_def, Option.bind_eq_bind, Option.bind_some, horigin, hprimary,
    hinner]

theorem Recordable.readable (h : b.Recordable) (depth : Nat) : Readable (depth + 2) b.toJson := by
  have hword : ∀ {id : Nat}, id ≤ 0xffffffff → id < wordBound := by
    intro id hid
    simp only [wordBound]
    omega
  apply Readable.object
  · simp only [List.forall_mem_cons, List.not_mem_nil, false_implies, implies_true, and_true]
    exact ⟨.text _ _, .text _ _, .text _ _, readable_nat (hword h.primary),
      readable_list fun id hid => readable_nat (hword (h.inner id hid))⟩
  · exact (by decide : names.Nodup)

end BundleRecord

namespace UnitRecord

/-- The number is a word of thirty-two bits, the size one of sixty-four. -/
structure Recordable (u : UnitRecord) : Prop where
  id : u.id ≤ 0xffffffff
  size : u.size ≤ 0xffffffffffffffff

variable {u : UnitRecord}

theorem Recordable.ofJson?_toJson (h : u.Recordable) : ofJson? u.toJson = some u := by
  have hid : unitNumber? (.nat u.id) = some u.id := natUpTo?_nat h.id
  have hsize : Json.natUpTo? 0xffffffffffffffff (.nat u.size) = some u.size := natUpTo?_nat h.size
  simp only [ofJson?, record?, toJson, text?, bool?, lookup?, String.reduceBEq, BEq.rfl,
    Bool.false_eq_true, if_false, if_true, Option.or_self, Option.or_some, Option.or_none,
    Option.getD_none, Option.pure_def, Option.bind_eq_bind, Option.bind_some, hid, hsize]

theorem Recordable.readable (h : u.Recordable) (depth : Nat) : Readable (depth + 2) u.toJson := by
  have hid := h.id
  have hsize := h.size
  apply Readable.object
  · simp only [List.forall_mem_cons, List.not_mem_nil, false_implies, implies_true, and_true]
    exact ⟨readable_nat (by simp only [wordBound]; omega), .text _ _, .bool _ _,
      readable_nat (by simp only [wordBound]; omega), .text _ _, .text _ _⟩
  · exact (by decide : names.Nodup)

end UnitRecord

/-! ### Manifests -/

namespace Manifest

structure Recordable (m : Manifest) : Prop where
  version : m.version ≤ 0xffffffff
  time : Timestamp.isValid m.createdAt = true
  bundles : ∀ b ∈ m.bundles, b.Recordable
  units : ∀ u ∈ m.units, u.Recordable

variable {m : Manifest}

theorem Recordable.ofJson?_toJson (h : m.Recordable) : ofJson? m.toJson = some m := by
  have hversion : unitNumber? (.nat m.version) = some m.version := natUpTo?_nat h.version
  have htime : time? (.text m.createdAt) = some m.createdAt := by
    simp [time?, text?, h.time]
  have hbundles : Json.listOf? BundleRecord.ofJson? (.list (m.bundles.map BundleRecord.toJson)) =
      some m.bundles := listOf?_map fun b hb => (h.bundles b hb).ofJson?_toJson
  have hunits : Json.listOf? UnitRecord.ofJson? (.list (m.units.map UnitRecord.toJson)) =
      some m.units := listOf?_map fun u hu => (h.units u hu).ofJson?_toJson
  simp [ofJson?, toJson, versionField, record?, lookup?, text?, hversion, htime,
    Metadata.ofJson?_toJson, hbundles, hunits]

theorem Recordable.readable (h : m.Recordable) (depth : Nat) : Readable (depth + 4) m.toJson := by
  have hversion := h.version
  apply Readable.object
  · simp only [List.forall_mem_cons, List.not_mem_nil, false_implies, implies_true, and_true]
    exact ⟨readable_nat (by simp only [wordBound]; omega), .text _ _, .text _ _,
      m.metadata.readable _, readable_list fun b hb => (h.bundles b hb).readable _,
      readable_list fun u hu => (h.units u hu).readable _⟩
  · exact (by decide : names.Nodup)

/-- A printed manifest gives its document. -/
theorem Recordable.readDistinct?_print (h : m.Recordable) :
    readDistinct? m.toJson.print = some m.toJson :=
  (h.readable 123).readDistinct?_print

end Manifest

end GrammarEngine

/-! ## Containers -/
namespace GrammarEngine.Container

variable {s : BundleSet} {k : NamingScheme} {metadata : Metadata} {createdAt : String}
  {read : EntryReader} {print : Json → String} {document? : List UInt8 → Option Json} {l : Library}
  {a b n id : Nat}

/-! ### Entry names -/

/-- A number with an extension. -/
def numbered (n : Nat) (ext : List Char) : List Char := Nat.toDigits 10 n ++ ext

theorem cleanPart_numbered {ext : List Char} (hslash : '/' ∉ ext) (hbackslash : '\\' ∉ ext) :
    EntryName.CleanPart (numbered n ext) := by
  have hdigits : ∀ c ∈ Nat.toDigits 10 n, c.isDigit = true :=
    fun c hc => Json.isDigit_of_mem_toDigits hc
  constructor
  · simp [numbered, Nat.toDigits_ne_nil]
  · rw [numbered, List.mem_append, not_or]
    exact ⟨fun hc => absurd (hdigits _ hc) (by decide), hslash⟩
  · rw [numbered, List.mem_append, not_or]
    exact ⟨fun hc => absurd (hdigits _ hc) (by decide), hbackslash⟩
  · obtain ⟨c, cs, hcs⟩ := List.exists_cons_of_ne_nil (Nat.toDigits_ne_nil (b := 10) (n := n))
    have hc := hdigits c (by simp [hcs])
    rw [numbered, hcs]
    rintro ⟨rfl⟩
    exact absurd hc (by decide)

theorem sourceEntry_eq (n : Nat) : sourceEntry n =
    String.ofList (sourcesDir.toList ++ '/' :: numbered n ['.', 's', 'r', 'c']) := by
  apply String.toList_injective
  simp [sourceEntry, sourcesDir, numbered]

theorem unitEntry_eq (id : Nat) : unitEntry id =
    String.ofList (unitsDir.toList ++ '/' :: numbered id ['.', 'b', 'i', 'n']) := by
  apply String.toList_injective
  simp [unitEntry, unitsDir, numbered]

theorem sanitize_manifestEntry : EntryName.sanitize manifestEntry = .ok manifestEntry :=
  rfl

theorem sanitizeIn_sourceEntry (n : Nat) :
    EntryName.sanitizeIn (sourceEntry n) sourcesDir = .ok (sourceEntry n) := by
  have hdir : EntryName.CleanPart sourcesDir.toList := by
    constructor <;> simp [sourcesDir]
  have hfile : EntryName.CleanPart (numbered n ['.', 's', 'r', 'c']) :=
    cleanPart_numbered (by decide) (by decide)
  rw [sourceEntry_eq]
  exact EntryName.sanitizeIn_of_clean hdir hfile

theorem sanitizeIn_unitEntry (id : Nat) :
    EntryName.sanitizeIn (unitEntry id) unitsDir = .ok (unitEntry id) := by
  have hdir : EntryName.CleanPart unitsDir.toList := by
    constructor <;> simp [unitsDir]
  have hfile : EntryName.CleanPart (numbered id ['.', 'b', 'i', 'n']) :=
    cleanPart_numbered (by decide) (by decide)
  rw [unitEntry_eq]
  exact EntryName.sanitizeIn_of_clean hdir hfile

theorem numbered_injective {ext : List Char} (h : numbered a ext = numbered b ext) : a = b := by
  have hdigits : Nat.toDigits 10 a = Nat.toDigits 10 b := List.append_cancel_right h
  rw [← Nat.ofDigitChars_ten_toDigits (n := a), hdigits, Nat.ofDigitChars_ten_toDigits]

theorem sourceEntry_injective (h : sourceEntry a = sourceEntry b) : a = b := by
  rw [sourceEntry_eq, sourceEntry_eq, String.ofList_inj] at h
  exact numbered_injective (List.cons.inj (List.append_cancel_left h)).2

theorem unitEntry_injective (h : unitEntry a = unitEntry b) : a = b := by
  rw [unitEntry_eq, unitEntry_eq, String.ofList_inj] at h
  exact numbered_injective (List.cons.inj (List.append_cancel_left h)).2

/-! The first letters tell the kinds of entries apart. -/

theorem head?_sourceEntry (n : Nat) : (sourceEntry n).toList.head? = some 's' := by
  simp [sourceEntry_eq, sourcesDir]

theorem head?_unitEntry (id : Nat) : (unitEntry id).toList.head? = some 'u' := by
  simp [unitEntry_eq, unitsDir]

theorem ne_of_head? {x y : String} {c d : Char} (hx : x.toList.head? = some c)
    (hy : y.toList.head? = some d) (h : c ≠ d) : x ≠ y := by
  rintro rfl
  exact h (Option.some.inj (hx.symm.trans hy))

theorem map_fst_sourceContents (s : BundleSet) :
    (sourceContents s).map Prod.fst = (List.range s.bundles.length).map sourceEntry := by
  rw [sourceContents, List.map_map, List.range_eq_range', ← List.zipIdx_map_snd, List.map_map]
  rfl

theorem map_fst_unitContents (s : BundleSet) :
    (unitContents s).map Prod.fst = (List.range s.units.length).map unitEntry := by
  rw [unitContents, List.map_map, List.range_eq_range', ← List.zipIdx_map_snd, List.map_map]
  rfl

theorem map_fst_pack (s : BundleSet) (metadata : Metadata) (createdAt : String)
    (print : Json → String) :
    (pack s metadata createdAt print).map Prod.fst =
      manifestEntry :: ((List.range s.bundles.length).map sourceEntry ++
        ((List.range s.units.length).map unitEntry ++ [summaryEntry])) := by
  rw [← map_fst_sourceContents, ← map_fst_unitContents]
  simp [pack]

/-- No two entries of a container have the same name. -/
theorem nodup_pack (s : BundleSet) (metadata : Metadata) (createdAt : String)
    (print : Json → String) : ((pack s metadata createdAt print).map Prod.fst).Nodup := by
  have hsources : ((List.range s.bundles.length).map sourceEntry).Nodup :=
    List.nodup_range.map fun _ _ h => sourceEntry_injective h
  have hunits : ((List.range s.units.length).map unitEntry).Nodup :=
    List.nodup_range.map fun _ _ h => unitEntry_injective h
  have hmanifest : manifestEntry.toList.head? = some 'm' := by simp [manifestEntry]
  have hsummary : summaryEntry.toList.head? = some 'r' := by simp [summaryEntry]
  rw [map_fst_pack, List.nodup_cons, List.nodup_append, List.nodup_append]
  simp only [List.mem_append, List.mem_map, List.mem_singleton]
  refine ⟨?_, hsources, ⟨hunits, List.nodup_singleton _, ?_⟩, ?_⟩
  · rintro (⟨n, _, hn⟩ | ⟨id, _, hid⟩ | hend)
    · exact ne_of_head? (head?_sourceEntry n) hmanifest (by decide) hn
    · exact ne_of_head? (head?_unitEntry id) hmanifest (by decide) hid
    · exact ne_of_head? hmanifest hsummary (by decide) hend
  · rintro _ ⟨id, _, rfl⟩ _ rfl
    exact ne_of_head? (head?_unitEntry id) hsummary (by decide)
  · rintro _ ⟨n, _, rfl⟩ _ (⟨id, _, rfl⟩ | rfl)
    · exact ne_of_head? (head?_sourceEntry n) (head?_unitEntry id) (by decide)
    · exact ne_of_head? (head?_sourceEntry n) hsummary (by decide)

/-! ### Reading entries -/

/-- Every entry of a set can be read. -/
def Reads (read : EntryReader) (entries : List (String × List UInt8)) : Prop :=
  ∀ e ∈ entries, read e.1 = .ok e.2

theorem readManifest_eq_ok {m : Manifest} (hversion : m.version = formatVersion)
    (hread : read manifestEntry = .ok (Text.utf8 (print m.toJson)))
    (hdocument : document? (Text.utf8 (print m.toJson)) = some m.toJson)
    (hrecord : Manifest.ofJson? m.toJson = some m) : readManifest read document? = .ok m := by
  have hfound : version? m.toJson = some formatVersion := by
    simp [version?, Json.field?, Manifest.toJson, Json.lookup?, Manifest.versionField, Json.nat,
      Json.natUpTo?, hversion, formatVersion]
  simp only [readManifest, clean, sanitize_manifestEntry, Except.mapError, bind, Except.bind, hread,
    hdocument, decodeManifest, hfound, beq_self_eq_true, if_true, hrecord]

theorem restoreUnit_eq_ok {u : CompiledUnit} (hread : read (unitEntry id) = .ok u.payload) :
    restoreUnit read (unitRecord u id, id) = .ok u := by
  have hin : readIn read (unitEntry id) unitsDir = .ok u.payload := by
    simp only [readIn, clean, sanitizeIn_unitEntry, Except.mapError, bind, Except.bind, hread]
  simp [restoreUnit, unitRecord, hin, CompiledUnit.size, bind, Except.bind, pure, Except.pure]

theorem restoreBundle_eq_ok {b : Bundle}
    (hread : read (sourceEntry n) = .ok (Text.utf8 b.source.source)) :
    restoreBundle read (bundleRecord b n) = .ok b := by
  have hin : readIn read (sourceEntry n) sourcesDir = .ok (Text.utf8 b.source.source) := by
    simp only [readIn, clean, sanitizeIn_sourceEntry, Except.mapError, bind, Except.bind, hread]
  simp only [restoreBundle, bundleRecord, hin, bind, Except.bind, Text.ofUtf8?_utf8]
  rfl

/-- The records of units, numbered from some number on, are restored under these numbers. -/
theorem restoreUnits_eq_ok {units : List CompiledUnit}
    (hread : ∀ p ∈ units.zipIdx n, read (unitEntry p.2) = .ok p.1.payload) :
    (((units.zipIdx n).map fun (u, id) => unitRecord u id).zipIdx n).mapM (restoreUnit read) =
      .ok units := by
  induction units generalizing n with
  | nil => rfl
  | cons u rest ih =>
      obtain ⟨hu, hrest⟩ := List.forall_mem_cons.mp hread
      simp only [List.zipIdx_cons, List.map_cons, List.mapM_cons, restoreUnit_eq_ok hu, ih hrest,
        bind, Except.bind]
      rfl

theorem restoreBundles_eq_ok {bundles : List Bundle}
    (hread : ∀ p ∈ bundles.zipIdx n, read (sourceEntry p.2) = .ok (Text.utf8 p.1.source.source)) :
    ((bundles.zipIdx n).map fun (b, n) => bundleRecord b n).mapM (restoreBundle read) =
      .ok bundles := by
  induction bundles generalizing n with
  | nil => rfl
  | cons b rest ih =>
      obtain ⟨hb, hrest⟩ := List.forall_mem_cons.mp hread
      simp only [List.zipIdx_cons, List.map_cons, List.mapM_cons, restoreBundle_eq_ok hb, ih hrest,
        bind, Except.bind]
      rfl

/-- What the manifest of a set describes is the set. -/
theorem assemble_manifest (hs : s.Consistent) (hk : s.verify k = .ok ())
    (hread : Reads read (pack s metadata createdAt print)) :
    assemble read k (manifest s metadata createdAt) = .ok s := by
  have hunits : (manifest s metadata createdAt).units.zipIdx.mapM (restoreUnit read) =
      .ok s.units := by
    apply restoreUnits_eq_ok
    intro p hp
    apply hread (unitEntry p.2, p.1.payload)
    simp only [pack, List.mem_append]
    exact .inl (.inr (List.mem_map.mpr ⟨p, hp, rfl⟩))
  have hbundles : (manifest s metadata createdAt).bundles.mapM (restoreBundle read) =
      .ok s.bundles := by
    apply restoreBundles_eq_ok
    intro p hp
    apply hread (sourceEntry p.2, Text.utf8 p.1.source.source)
    simp only [pack, List.mem_append]
    exact .inl (.inl (.inr (List.mem_map.mpr ⟨p, hp, rfl⟩)))
  simp only [assemble, hunits, hbundles, hs.ofParts_eq_ok, hk, bind, Except.bind, Except.mapError]
  rfl

/-! ### Kept entries -/

/-- The archive of a set returns for the name of every entry the bytes that were written, and the
manifest is read back from its document. -/
structure Kept (l : Library) (s : BundleSet) (metadata : Metadata) (createdAt : String) : Prop where
  archive : ∃ read, l.access (l.write (pack s metadata createdAt l.print)) = .ok read ∧
    Reads read (pack s metadata createdAt l.print)
  document : l.document? (Text.utf8 (l.print (manifest s metadata createdAt).toJson)) =
    some (manifest s metadata createdAt).toJson
  record : Manifest.ofJson? (manifest s metadata createdAt).toJson =
    some (manifest s metadata createdAt)

/-- The manifest of a set can be recorded if its numbers are words. -/
theorem recordable_manifest (hs : s.Partitioned) (htime : Timestamp.isValid createdAt = true)
    (hcount : s.units.length ≤ 0x100000000)
    (hsizes : ∀ u ∈ s.units, u.size ≤ 0xffffffffffffffff) :
    (manifest s metadata createdAt).Recordable := by
  have hplaced : ∀ b ∈ s.bundles, ∀ id ∈ b.unitIds, id ≤ 0xffffffff := by
    intro b hb id hid
    have hrange := hs.placed.mem_iff.mp (List.mem_flatMap.mpr ⟨b, hb, hid⟩)
    have hlt := List.mem_range.mp hrange
    omega
  refine ⟨by simp [manifest, formatVersion], htime, ?_, ?_⟩
  · intro r hr
    obtain ⟨⟨b, n⟩, hb, rfl⟩ := List.mem_map.mp hr
    have hmem : b ∈ s.bundles := List.mem_of_getElem? (List.mem_zipIdx_iff_getElem?.mp hb)
    constructor
    · exact hplaced b hmem b.primary List.mem_cons_self
    · exact fun id hid => hplaced b hmem id (List.mem_cons_of_mem _ hid)
  · intro r hr
    obtain ⟨⟨u, id⟩, hu, rfl⟩ := List.mem_map.mp hr
    have hget := List.mem_zipIdx_iff_getElem?.mp hu
    have hid : id < s.units.length := (List.getElem?_eq_some_iff.mp hget).1
    constructor
    · simp only [unitRecord]
      omega
    · exact hsizes u (List.mem_of_getElem? hget)

theorem access_plain {entries : List (String × List UInt8)} (h : Archive.Fits entries) :
    Library.plain.access (Library.plain.write entries) =
      .ok (ofArchive (Archive.ofContents entries)) := by
  simp only [Library.plain, Archive.read_write h, Except.mapError, Except.map]

theorem reads_ofContents {entries : List (String × List UInt8)}
    (h : (entries.map Prod.fst).Nodup) :
    Reads (ofArchive (Archive.ofContents entries)) entries := by
  intro e he
  simp [ofArchive, Archive.read?_ofContents h he, Except.mapError]

theorem readDocument?_print {m : Manifest} (h : m.Recordable) :
    readDocument? (Text.utf8 m.toJson.print) = some m.toJson := by
  rw [readDocument?, Text.ofUtf8?_utf8, Option.bind_some, h.readDistinct?_print]

/-- Plain archives and documents keep a set if the archive has room for its entries. -/
theorem kept_of_fits (hs : s.Partitioned) (htime : Timestamp.isValid createdAt = true)
    (hfits : Archive.Fits (pack s metadata createdAt)) : Kept .plain s metadata createdAt := by
  have hcount : s.units.length ≤ 0x100000000 := by
    have hall := hfits.count
    simp only [pack, sourceContents, unitContents, List.length_append, List.length_map,
      List.length_zipIdx, List.length_singleton] at hall
    omega
  have hsizes : ∀ u ∈ s.units, u.size ≤ 0xffffffffffffffff := by
    intro u hu
    obtain ⟨id, hid⟩ := List.mem_iff_getElem?.mp hu
    have hplace : (u, id) ∈ s.units.zipIdx := List.mem_zipIdx_iff_getElem?.mpr hid
    have hentry : (unitEntry id, u.payload) ∈ pack s metadata createdAt := by
      simp only [pack, List.mem_append]
      exact .inl (.inr (List.mem_map.mpr ⟨_, hplace, rfl⟩))
    have hsize : u.payload.length < _ := Archive.length_lt_write hentry
    have hbound := hfits.size
    rw [CompiledUnit.size]
    omega
  have hrecordable : (manifest s metadata createdAt).Recordable :=
    recordable_manifest hs htime hcount hsizes
  exact ⟨⟨_, access_plain hfits, reads_ofContents (nodup_pack s metadata createdAt Json.print)⟩,
    readDocument?_print hrecordable, hrecordable.ofJson?_toJson⟩

/-! ### Restoring -/

theorem restoreWith_eq_ok (hs : s.Consistent) (hk : s.verify k = .ok ())
    (h : Kept l s metadata createdAt) (hreads : Reads read (pack s metadata createdAt l.print)) :
    restoreWith read k l.document? = .ok (s, metadata) := by
  have hmanifest : readManifest read l.document? = .ok (manifest s metadata createdAt) := by
    apply readManifest_eq_ok rfl _ h.document h.record
    apply hreads (manifestEntry, Text.utf8 (l.print (manifest s metadata createdAt).toJson))
    simp [pack]
  have hassemble := assemble_manifest hs hk hreads
  simp only [restoreWith, hmanifest, hassemble, bind, Except.bind]
  rfl

theorem restore_eq_ok (hs : s.Consistent) (hk : s.verify k = .ok ())
    (h : Kept l s metadata createdAt) :
    (PersistedBundle.store s metadata createdAt l).restore k l = .ok (s, metadata) := by
  obtain ⟨read, haccess, hreads⟩ := h.archive
  simp only [PersistedBundle.restore, PersistedBundle.store, haccess, bind, Except.bind]
  exact restoreWith_eq_ok hs hk h hreads

/-- Storing a set that has grown from the empty one never repeats the name of an entry, and
restoring what was stored gives the same set and the same metadata under every naming scheme that
the set passes. This is so with any archives and documents by which the set is kept. -/
theorem restore_store (hs : s.Built) (hk : s.verify k = .ok ()) (h : Kept l s metadata createdAt) :
    ((pack s metadata createdAt l.print).map Prod.fst).Nodup ∧
      (PersistedBundle.store s metadata createdAt l).restore k l = .ok (s, metadata) :=
  ⟨nodup_pack s metadata createdAt l.print, restore_eq_ok hs.consistent hk h⟩

def letterLexer : UnitSource :=
  ⟨"L", "(lexer \"L\" (modes \"M\") (token 1 \"A\") (rule \"A\" 1 \"M\" (alt (lit \"a\"))))",
    .generated⟩

def letterParser : UnitSource :=
  ⟨"P", "(parser \"P\" (vocab \"L\") (start \"s\") (rule \"s\" (alt (tok \"A\"))))", .generated⟩

/-- A lexer of one token and a parser of one rule over it, as they are compiled. -/
def letterSet : BundleSet where
  units :=
    [⟨"L", [73, 71, 85, 1, 0, 1, 76, 0, 1, 1, 77, 2, 21, 68, 69, 70, 65, 85, 76, 84, 95, 84, 79,
        75, 69, 78, 95, 67, 72, 65, 78, 78, 69, 76, 6, 72, 73, 68, 68, 69, 78, 1, 2, 1, 65, 0, 1,
        3, 76, 36, 65], false⟩,
      ⟨"P", [73, 71, 85, 1, 2, 1, 80, 0, 1, 76, 1, 1, 115, 1, 3, 80, 36, 115, 0], false⟩,
      ⟨"L$A", [73, 71, 85, 1, 1, 1, 65, 2, 0, 0, 2, 0, 97, 5, 0, 1, 0], true⟩,
      ⟨"P$s", [73, 71, 85, 1, 3, 1, 115, 0, 0, 1, 2], true⟩]
  bundles := [⟨letterLexer, 0, [2]⟩, ⟨letterParser, 1, [3]⟩]

def letterMetadata : Metadata := { grammarName := "G", lexer := some "L", parser := some "P" }

def newYear : String := "2025-01-01T00:00:00.000000000+00:00"

theorem letterSet_compiled :
    BundleSet.compile Compiler.units ({} : NamingScheme) [letterLexer, letterParser] =
      .ok letterSet := by
  decide +kernel

/-- The records of units over the digests of their payloads. -/
theorem unitRecords_eq (units : List CompiledUnit) :
    (units.zipIdx.map fun (u, id) => unitRecord u id) =
      List.zipWith (fun (u, id) digest => ⟨id, u.name, u.inner, u.size, digest, unitEntry id⟩)
        units.zipIdx (units.map fun u => Sha256.hexDigest u.payload) := by
  rw [← List.zipIdx_map_fst 0 units, List.map_map, List.zipIdx_map_fst, List.zipWith_map_right,
    List.zipWith_self]
  rfl

theorem letterSet_digests : (letterSet.units.map fun u => Sha256.hexDigest u.payload) =
    ["478c3956e17fc988dc4799fc794d4a84455a87b8de305ad4c082965a5b9a8e39",
      "c84d61295c5dc7861e546546cca6d0bb31b1afef1413dec2006e19e8fa66205a",
      "6e7d9458991ae8df8649ea7360ad7144920bf763bbc59b74daf750f48c9117a8",
      "4c96446fb04c630aaf71f0c7ac01c261f64797b9546ee1c4572b1d920cc0facd"] := by
  simp only [letterSet, List.map_cons, List.map_nil, List.cons.injEq, and_true]
  exact ⟨by decide +kernel, by decide +kernel, by decide +kernel, by decide +kernel⟩

theorem letterSet_kept : Kept .plain letterSet letterMetadata newYear := by
  have hbuilt := (BundleSet.compile_verified letterSet_compiled).1
  have hsize : (Archive.write (pack letterSet letterMetadata newYear)).length < 0xffffffff := by
    -- The kernel is slow at digests, so it gets them as texts.
    simp only [Archive.length_write, pack, manifest, unitRecords_eq, letterSet_digests]
    decide +kernel
  have hfits : Archive.Fits (pack letterSet letterMetadata newYear) :=
    ⟨by decide, by decide +kernel, hsize⟩
  exact kept_of_fits hbuilt.consistent.toPartitioned (by decide +kernel) hfits

theorem letterSet_restored :
    letterSet.Built ∧ letterSet.verify Classifier.bare = .ok () ∧
      Kept .plain letterSet letterMetadata newYear ∧
      ((pack letterSet letterMetadata newYear).map Prod.fst).Nodup ∧
      (PersistedBundle.store letterSet letterMetadata newYear).restore Classifier.bare =
        .ok (letterSet, letterMetadata) := by
  have hbuilt := (BundleSet.compile_verified letterSet_compiled).1
  have hverify : letterSet.verify Classifier.bare = .ok () := by decide
  exact ⟨hbuilt, hverify, letterSet_kept, restore_store hbuilt hverify letterSet_kept⟩

end GrammarEngine.Container
