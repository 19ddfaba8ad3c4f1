import GrammarEngine.Archive.Zip
import GrammarEngine.Proofs.Text
import Mathlib.Algebra.Group.Nat.Defs
import Mathlib.Algebra.GroupWithZero.Nat
import Mathlib.Data.Option.Basic

/-!
# Written archives

What is written as an archive is read back entry by entry, as long as the numbers of its records
have room for it. The records are read where they stand: each is a row of numbers of fixed lengths,
so the number at an offset of a record is found by leaving out the numbers before it.

The closing record is the first one that is found from the end, since nothing that begins behind it
is long enough. It leads to the directory, whose headers stand one behind the other and lead to the
local records in front of it.
-/
namespace GrammarEngine.Archive

/-! ## Written records -/

variable {bytes piece a b name contents : List UInt8} {offset count n start : Nat}

/-! ### Places -/

/-- A piece of the bytes begins at an offset. -/
def Stands (bytes : List UInt8) (offset : Nat) (piece : List UInt8) : Prop :=
  ∃ before after, bytes = before ++ (piece ++ after) ∧ before.length = offset

theorem Stands.left (h : Stands bytes offset (a ++ b)) : Stands bytes offset a := by
  obtain ⟨before, after, hbytes, hlength⟩ := h
  exact ⟨before, b ++ after, by simp [hbytes], hlength⟩

theorem Stands.right (h : Stands bytes offset (a ++ b)) : Stands bytes (offset + a.length) b := by
  obtain ⟨before, after, hbytes, hlength⟩ := h
  exact ⟨before ++ a, after, by simp [hbytes], by simp [hlength]⟩

theorem Stands.le_length (h : Stands bytes offset piece) :
    offset + piece.length ≤ bytes.length := by
  obtain ⟨before, after, rfl, rfl⟩ := h
  simp

theorem Stands.extract (h : Stands bytes offset piece) :
    (bytes.toArray.extract offset (offset + piece.length)).toList = piece := by
  obtain ⟨before, after, rfl, rfl⟩ := h
  simp [List.extract_eq_take_drop]

theorem Stands.bytesAt? (h : Stands bytes offset piece) :
    bytesAt? bytes.toArray offset piece.length = some piece := by
  have hfits : offset + piece.length ≤ bytes.toArray.size := h.le_length
  unfold Archive.bytesAt?
  rw [if_pos hfits, h.extract]

theorem bytesAt?_of_lt {bytes : Array UInt8} (h : bytes.size < offset + count) :
    bytesAt? bytes offset count = none :=
  if_neg (Nat.not_le.mpr h)

/-! ### Numbers -/

/-- A number that fits is read back. -/
theorem ofLittleEndian_littleEndian (h : n < 256 ^ count) :
    ofLittleEndian (littleEndian count n) = n := by
  induction count generalizing n with
  | zero => simp at h; simp [littleEndian, ofLittleEndian, h]
  | succ count ih =>
    have hq : n / 256 < 256 ^ count := by
      rw [Nat.div_lt_iff_lt_mul (by decide)]
      simpa [Nat.pow_succ] using h
    have := ih hq
    simp only [littleEndian, ofLittleEndian, List.foldr_cons] at this ⊢
    rw [this]
    simp only [UInt8.toNat_ofNat']
    omega

theorem numberIn_first (h : n < 256 ^ count) (rest : List UInt8) :
    numberIn (littleEndian count n ++ rest) 0 count = n := by
  unfold numberIn
  rw [List.drop_zero, List.take_left' (length_littleEndian count n),
    ofLittleEndian_littleEndian h]

theorem numberIn_only (h : n < 256 ^ count) : numberIn (littleEndian count n) 0 count = n := by
  simpa using numberIn_first h []

/-- A number that stands before the offset is left out. -/
theorem numberIn_append {width value : Nat} (h : width ≤ offset) (rest : List UInt8) :
    numberIn (littleEndian width value ++ rest) offset count =
      numberIn rest (offset - width) count := by
  unfold numberIn
  rw [List.drop_append, List.drop_eq_nil_of_le (by simpa using h), List.nil_append,
    length_littleEndian]

theorem crc32_lt (contents : List UInt8) : (Checksum.crc32 contents).toNat < 256 ^ 4 :=
  UInt32.toNat_lt _

/-! ### Headers in the directory -/

/-- A directory record without the name at its end. -/
def directoryFixed (name contents : List UInt8) (start : Nat) : List UInt8 :=
  littleEndian 4 directoryMark ++ littleEndian 2 20 ++ commonHeader name contents ++
    littleEndian 2 0 ++ littleEndian 2 0 ++ littleEndian 2 0 ++ littleEndian 4 0 ++
    littleEndian 4 start

theorem directoryRecord_eq (name contents : List UInt8) (start : Nat) :
    directoryRecord name contents start = directoryFixed name contents start ++ name :=
  rfl

@[simp] theorem length_directoryFixed (name contents : List UInt8) (start : Nat) :
    (directoryFixed name contents start).length = 46 := by
  simp [directoryFixed, commonHeader]

/-- The numbers of a directory record that are looked at. -/
theorem numberIn_directoryFixed (hname : name.length < 256 ^ 2)
    (hcontents : contents.length < 256 ^ 4) (hstart : start < 256 ^ 4) :
    let fixed := directoryFixed name contents start
    numberIn fixed 0 4 = directoryMark ∧ numberIn fixed 8 2 = 0x0800 ∧ numberIn fixed 10 2 = 0 ∧
      numberIn fixed 16 4 = (Checksum.crc32 contents).toNat ∧
      numberIn fixed 20 4 = contents.length ∧ numberIn fixed 24 4 = contents.length ∧
      numberIn fixed 28 2 = name.length ∧ numberIn fixed 30 2 = 0 ∧ numberIn fixed 32 2 = 0 ∧
      numberIn fixed 42 4 = start := by
  have hcrc := crc32_lt contents
  refine ⟨?_, ?_, ?_, ?_, ?_, ?_, ?_, ?_, ?_, ?_⟩ <;>
    simp only [directoryFixed, commonHeader, List.append_assoc, numberIn_append,
      Nat.reduceLeDiff, Nat.reduceSub, Nat.le_refl, Nat.sub_self]
  · exact numberIn_first (by decide) _
  · exact numberIn_first (by decide) _
  · exact numberIn_first (by decide) _
  · exact numberIn_first hcrc _
  · exact numberIn_first hcontents _
  · exact numberIn_first hcontents _
  · exact numberIn_first hname _
  · exact numberIn_first (by decide) _
  · exact numberIn_first (by decide) _
  · exact numberIn_only hstart

/-- The header of a written entry. -/
def headerOf (name : String) (contents : List UInt8) (start : Nat) : Header where
  nameBytes := Text.utf8 name
  name := name
  comment := []
  flags := 0x0800
  method := 0
  checksum := (Checksum.crc32 contents).toNat
  storedSize := contents.length
  plainSize := contents.length
  start := start

theorem fieldText_utf8 (name : String) : fieldText 0x0800 (Text.utf8 name) = name := by
  have hflag : Nat.testBit 0x0800 11 = true := by decide
  rw [fieldText, if_pos hflag, Text.ofUtf8Lossy_utf8]

theorem fieldText_nil : Text.utf8 (fieldText 0x0800 []) = [] :=
  congrArg Text.utf8 (fieldText_utf8 "")

theorem Header.withExtra?_nil (h : Header) : h.withExtra? [] = some h :=
  rfl

theorem Header.startingFrom?_zero {h : Header} (hstart : h.start < 0x10000000000000000) :
    h.startingFrom? 0 = some h :=
  if_pos hstart

theorem headerAt?_directoryRecord {name : String}
    (h : Stands bytes offset (directoryRecord (Text.utf8 name) contents start))
    (hname : (Text.utf8 name).length < 256 ^ 2) (hcontents : contents.length < 256 ^ 4)
    (hstart : start < 256 ^ 4) :
    headerAt? bytes.toArray 0 offset = some (headerOf name contents start,
      offset + (directoryRecord (Text.utf8 name) contents start).length) := by
  rw [directoryRecord_eq] at h ⊢
  obtain ⟨hmark, hflags, hmethod, hchecksum, hstored, hplain, hnameLength, hextra, hcomment,
    hfrom⟩ := numberIn_directoryFixed hname hcontents hstart
  have hfixed := h.left.bytesAt?
  have hnameBytes := h.right.bytesAt?
  have hempty : ∀ o ≤ bytes.length, Archive.bytesAt? bytes.toArray o 0 = some [] := by
    intro o ho
    simp [Archive.bytesAt?, ho]
  have hend := h.right.le_length
  rw [length_directoryFixed] at hfixed hnameBytes hend
  have hwide : start < 0x10000000000000000 := by omega
  simp only [headerAt?, hfixed, hmark, hflags, hmethod, hchecksum, hstored, hplain, hnameLength,
    hextra, hcomment, hfrom, hnameBytes, Nat.add_zero, hempty _ hend, Option.bind_eq_bind,
    Option.bind_some]
  rw [fieldText_utf8, fieldText_nil, Header.withExtra?_nil, Option.bind_some]
  rw [Header.startingFrom?_zero hwide]
  simp [guard, headerOf, Header.sealedMethod, Nat.add_assoc]

theorem numberAt?_directoryRecord (h : Stands bytes offset (directoryRecord name contents start)) :
    numberAt? bytes.toArray offset 4 = some directoryMark := by
  obtain ⟨rest, hrest⟩ : ∃ rest, directoryRecord name contents start =
      littleEndian 4 directoryMark ++ rest :=
    ⟨_, by simp only [directoryRecord, List.append_assoc]; rfl⟩
  rw [hrest] at h
  have hmark := h.left.bytesAt?
  rw [length_littleEndian] at hmark
  rw [numberAt?, hmark, Option.map_some, ofLittleEndian_littleEndian (by decide)]

/-! ### Local records -/

/-- A local record without the name and the contents at its end. -/
def localFixed (name contents : List UInt8) : List UInt8 :=
  littleEndian 4 localMark ++ commonHeader name contents

theorem localRecord_eq (name contents : List UInt8) :
    localRecord name contents = localFixed name contents ++ name ++ contents :=
  rfl

@[simp] theorem length_localFixed (name contents : List UInt8) :
    (localFixed name contents).length = 30 := by
  simp [localFixed, commonHeader]

theorem numberIn_localFixed (contents : List UInt8) (hname : name.length < 256 ^ 2) :
    let fixed := localFixed name contents
    numberIn fixed 0 4 = localMark ∧ numberIn fixed 26 2 = name.length ∧
      numberIn fixed 28 2 = 0 := by
  refine ⟨?_, ?_, ?_⟩ <;>
    simp only [localFixed, commonHeader, List.append_assoc, numberIn_append, Nat.reduceLeDiff,
      Nat.reduceSub, Nat.le_refl, Nat.sub_self]
  · exact numberIn_first (by decide) _
  · exact numberIn_first hname _
  · exact numberIn_only (by decide)

theorem contentsStart?_localRecord (h : Stands bytes offset (localRecord name contents))
    (hname : name.length < 256 ^ 2) :
    contentsStart? bytes.toArray offset = some (offset + 30 + name.length) := by
  rw [localRecord_eq] at h
  obtain ⟨hmark, hnameLength, hextra⟩ := numberIn_localFixed contents hname
  have hfixed := h.left.left.bytesAt?
  rw [length_localFixed] at hfixed
  simp [contentsStart?, hfixed, hmark, hnameLength, hextra, guard]

/-- The contents of a written entry are found behind its local record and have its checksum. -/
theorem contents_headerOf {name : String}
    (h : Stands bytes start (localRecord (Text.utf8 name) contents))
    (hname : (Text.utf8 name).length < 256 ^ 2) :
    Archive.contents bytes.toArray (headerOf name contents start) = .ok contents := by
  have hstart := contentsStart?_localRecord h hname
  rw [localRecord_eq] at h
  have hstored := h.right.extract
  rw [List.length_append, length_localFixed, ← Nat.add_assoc] at hstored
  have hopen : Nat.testBit 0x0800 0 = false := by decide
  simp only [Archive.contents, hopen, headerOf, hstart, hstored, plain, Bool.or_self,
    Bool.false_eq_true, if_false, bind, Except.bind, beq_self_eq_true, if_true]
  rfl

/-! ### The closing record -/

theorem littleEndian_zero : littleEndian 4 0 = littleEndian 2 0 ++ littleEndian 2 0 :=
  rfl

@[simp] theorem length_endRecord (count size start : Nat) :
    (endRecord count size start).length = 22 := by
  simp [endRecord]

theorem numberIn_endRecord (size : Nat) (hcount : count < 256 ^ 2) (hstart : start < 256 ^ 4) :
    let fixed := endRecord count size start
    numberIn fixed 0 4 = endMark ∧ numberIn fixed 4 2 = 0 ∧ numberIn fixed 6 2 = 0 ∧
      numberIn fixed 8 2 = count ∧ numberIn fixed 10 2 = count ∧ numberIn fixed 16 4 = start ∧
      numberIn fixed 20 2 = 0 := by
  refine ⟨?_, ?_, ?_, ?_, ?_, ?_, ?_⟩ <;>
    simp only [endRecord, littleEndian_zero, List.append_assoc, numberIn_append, Nat.reduceLeDiff,
      Nat.reduceSub, Nat.le_refl, Nat.sub_self]
  · exact numberIn_first (by decide) _
  · exact numberIn_first (by decide) _
  · exact numberIn_first (by decide) _
  · exact numberIn_first hcount _
  · exact numberIn_first hcount _
  · exact numberIn_first hstart _
  · exact numberIn_only (by decide)

/-- The closing record of a written archive. -/
def closingOf (offset count start : Nat) : Closing where
  offset := offset
  disk := 0
  directoryDisk := 0
  countHere := count
  count := count
  start := start

theorem closingAt?_endRecord {size : Nat} (h : Stands bytes offset (endRecord count size start))
    (hcount : count < 256 ^ 2) (hstart : start < 256 ^ 4) :
    closingAt? bytes.toArray offset = some (closingOf offset count start) := by
  obtain ⟨hmark, hdisk, hdirectoryDisk, hhere, hcount', hstart', hcomment⟩ :=
    numberIn_endRecord size hcount hstart
  have hfixed := h.bytesAt?
  have hend := h.le_length
  rw [length_endRecord] at hfixed hend
  simp [closingAt?, closingOf, hfixed, hmark, hdisk, hdirectoryDisk, hhere, hcount', hstart',
    hcomment, hend, guard]

theorem closingAt?_of_lt {bytes : Array UInt8} (h : bytes.size < offset + 22) :
    closingAt? bytes offset = none := by
  simp [closingAt?, bytesAt?_of_lt h]

end GrammarEngine.Archive

/-! ## Archives -/
namespace GrammarEngine.Archive

variable {bytes : List UInt8} {entries : List (String × List UInt8)} {offset start : Nat}

/-- The numbers of the records have room for the entries. -/
structure Fits (entries : List (String × List UInt8)) : Prop where
  count : entries.length < 0xffff
  names : ∀ e ∈ entries, (Text.utf8 e.1).length < 0x10000
  size : (write entries).length < 0xffffffff

/-! ### Records in a row -/

/-- The headers of entries, the first of which starts at an offset. -/
def headersOf : Nat → List (String × List UInt8) → List Header
  | _, [] => []
  | start, (name, contents) :: rest =>
    headerOf name contents start ::
      headersOf (start + (localRecord (Text.utf8 name) contents).length) rest

theorem layout_cons (start : Nat) (name : String) (contents : List UInt8)
    (rest : List (String × List UInt8)) :
    layout start ((name, contents) :: rest) =
      (localRecord (Text.utf8 name) contents ++
          (layout (start + (localRecord (Text.utf8 name) contents).length) rest).1,
        directoryRecord (Text.utf8 name) contents start ++
          (layout (start + (localRecord (Text.utf8 name) contents).length) rest).2) :=
  rfl

theorem headersAt?_layout (h : Stands bytes offset (layout start entries).2)
    (hnames : ∀ e ∈ entries, (Text.utf8 e.1).length < 256 ^ 2)
    (hend : start + (layout start entries).1.length < 256 ^ 4) :
    headersAt? bytes.toArray 0 entries.length offset = some (headersOf start entries) := by
  induction entries generalizing start offset with
  | nil => rfl
  | cons e rest ih =>
      obtain ⟨name, contents⟩ := e
      obtain ⟨hname, hrest⟩ := List.forall_mem_cons.mp hnames
      rw [layout_cons] at h hend
      simp only [List.length_append] at hend
      have hcontents : contents.length < 256 ^ 4 := by
        rw [localRecord_eq] at hend
        simp only [List.length_append] at hend
        omega
      have hheader := headerAt?_directoryRecord h.left hname hcontents (by omega)
      have hheaders := ih h.right hrest (by omega)
      simp only [List.length_cons, headersAt?, hheader, Option.bind_eq_bind, Option.bind_some,
        hheaders, headersOf]
      rfl

theorem contents_headersOf (h : Stands bytes start (layout start entries).1)
    (hnames : ∀ e ∈ entries, (Text.utf8 e.1).length < 256 ^ 2) :
    (headersOf start entries).map (fun header =>
        (header.name, Archive.contents bytes.toArray header)) =
      entries.map fun e => (e.1, .ok e.2) := by
  induction entries generalizing start with
  | nil => rfl
  | cons e rest ih =>
      obtain ⟨name, contents⟩ := e
      obtain ⟨hname, hrest⟩ := List.forall_mem_cons.mp hnames
      rw [layout_cons] at h
      rw [headersOf, List.map_cons, contents_headerOf h.left hname, ih h.right hrest]
      rfl

/-- The bytes that an entry takes: its records and twice its name. -/
theorem length_layout (start : Nat) (entries : List (String × List UInt8)) :
    (layout start entries).1.length + (layout start entries).2.length =
      (entries.map fun e => 76 + 2 * (Text.utf8 e.1).length + e.2.length).sum := by
  induction entries generalizing start with
  | nil => rfl
  | cons e rest ih =>
      obtain ⟨name, contents⟩ := e
      have hrest := ih (start + (localRecord (Text.utf8 name) contents).length)
      rw [layout_cons, localRecord_eq, directoryRecord_eq]
      rw [localRecord_eq] at hrest
      simp only [List.length_append, length_localFixed, length_directoryFixed, List.map_cons,
        List.sum_cons] at hrest ⊢
      omega

theorem length_write (entries : List (String × List UInt8)) :
    (write entries).length =
      (entries.map fun e => 76 + 2 * (Text.utf8 e.1).length + e.2.length).sum + 22 := by
  rw [← length_layout 0 entries]
  simp [write, Nat.add_assoc]

theorem length_lt_write {e : String × List UInt8} (h : e ∈ entries) :
    e.2.length < (write entries).length := by
  obtain ⟨before, after, rfl⟩ := List.append_of_mem h
  rw [length_write, List.map_append, List.map_cons, List.sum_append, List.sum_cons]
  omega

/-! ### The directory -/

/-- The directory begins with a header, unless the archive has no entries. -/
theorem narrowDirectory?_layout (h : Stands bytes start (layout 0 entries).2)
    (hlengths : (layout 0 entries).1.length = start ∧
      offset = start + (layout 0 entries).2.length) :
    (closingOf offset entries.length start).narrowDirectory? bytes.toArray =
      some ⟨start, entries.length, 0⟩ := by
  obtain ⟨hstart, hoffset⟩ := hlengths
  cases entries with
  | nil =>
      obtain rfl : start = 0 := hstart.symm
      obtain rfl : offset = 0 := hoffset
      rfl
  | cons e rest =>
      obtain ⟨name, contents⟩ := e
      rw [layout_cons] at h hoffset
      have hmark := numberAt?_directoryRecord h.left
      obtain ⟨k, hk⟩ : ∃ k, offset - start = k + 1 := by
        refine ⟨offset - start - 1, ?_⟩
        rw [directoryRecord_eq] at hoffset
        simp only [List.length_append, length_directoryFixed] at hoffset
        omega
      simp [Closing.narrowDirectory?, closingOf, offsets, hk, List.range'_succ, hmark, guard]

/-- The last offset at which something is found is the one that counts. -/
theorem findSome?_reverse_range {α : Type} {f : Nat → Option α} {a : α} {n i : Nat} (hi : i < n)
    (ha : f i = some a) (hnone : ∀ j, i < j → j < n → f j = none) :
    (List.range n).reverse.findSome? f = some a := by
  induction n with
  | zero => exact absurd hi (Nat.not_lt_zero i)
  | succ n ih =>
      rw [List.range_succ, List.reverse_append, List.reverse_singleton, List.singleton_append,
        List.findSome?_cons]
      rcases Nat.lt_succ_iff_lt_or_eq.mp hi with hlt | rfl
      · rw [hnone n hlt (Nat.lt_succ_self n)]
        exact ih hlt fun j hij hjn => hnone j hij (Nat.lt_succ_of_lt hjn)
      · rw [ha]

/-- The headers of a written archive are those of its entries. -/
theorem headers?_write (h : Fits entries) :
    headers? (write entries).toArray = some (headersOf 0 entries) := by
  have hall : Stands (write entries) 0 (write entries) := ⟨[], [], by simp, rfl⟩
  have hdirectory := hall.left.right
  have hend := hall.right
  have hsize := h.size
  have hcount := h.count
  have hlength : (write entries).length =
      (layout 0 entries).1.length + (layout 0 entries).2.length + 22 := by
    rw [length_write, length_layout]
  rw [List.length_append, Nat.zero_add] at hend
  rw [Nat.zero_add] at hdirectory
  have hclosing := closingAt?_endRecord hend (by omega) (by omega)
  have hnarrow := narrowDirectory?_layout hdirectory ⟨rfl, rfl⟩
  have hheaders := headersAt?_layout hdirectory h.names (by omega)
  have hshort : (closingOf ((layout 0 entries).1.length + (layout 0 entries).2.length)
      entries.length (layout 0 entries).1.length).isShort = false := by
    simp only [Closing.isShort, closingOf, Extra.narrowLimit, Bool.or_eq_false_iff,
      beq_eq_false_iff_ne]
    omega
  apply findSome?_reverse_range (i := (layout 0 entries).1.length + (layout 0 entries).2.length)
  · simp only [List.size_toArray]
    omega
  · simp only [headersFrom?, hclosing, Closing.directory?, hshort, hnarrow, hheaders,
      Option.bind_eq_bind, Option.bind_some, Bool.false_eq_true, if_false]
  · intro j hj _
    have hbehind : (write entries).toArray.size < j + 22 := by
      simp only [List.size_toArray]
      omega
    rw [headersFrom?, closingAt?_of_lt hbehind]
    rfl

/-- Entries for which there is room are read back as they were written. -/
theorem read_write (h : Fits entries) : read (write entries) = .ok (ofContents entries) := by
  have hall : Stands (write entries) 0 (write entries) := ⟨[], [], by simp, rfl⟩
  have hrecords : Stands (write entries) 0 (layout 0 entries).1 := hall.left.left
  simp only [read, headers?_write h, contents_headersOf hrecords h.names]
  rfl

/-- Where names differ, every entry is found under its name. -/
theorem read?_ofContents (h : (entries.map Prod.fst).Nodup) {e : String × List UInt8}
    (he : e ∈ entries) : (ofContents entries).read? e.1 = some (.ok e.2) := by
  have hfind : (ofContents entries).entries.reverse.find? (fun d => d.1 == e.1) =
      some (e.1, .ok e.2) := by
    rw [List.find?_eq_some_iff_append]
    obtain ⟨before, after, rfl⟩ := List.append_of_mem he
    refine ⟨by simp, after.reverse.map fun e => (e.1, .ok e.2),
      before.reverse.map fun e => (e.1, .ok e.2), by simp [ofContents], ?_⟩
    intro d hd
    obtain ⟨c, hc, rfl⟩ := List.mem_map.mp hd
    simp only [List.map_append, List.map_cons, List.nodup_append, List.nodup_cons] at h
    have hne : c.1 ≠ e.1 := by
      intro heq
      exact h.2.1.1 (List.mem_map.mpr ⟨c, List.mem_reverse.mp hc, heq⟩)
    simpa using hne
  rw [Archive.read?, hfind, Option.map_some]

end GrammarEngine.Archive
