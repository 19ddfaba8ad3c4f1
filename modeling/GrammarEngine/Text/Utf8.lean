/-!
# Bytes of a text

A text is stored as its UTF-8 bytes. Reading bytes fails exactly when they are no well-formed UTF-8
sequence, and what was written is read back.
-/
namespace GrammarEngine.Text

/-- The UTF-8 bytes of a text. -/
def utf8 (s : String) : List UInt8 := s.toUTF8.data.toList

/-- The text of a well-formed UTF-8 byte sequence. -/
def ofUtf8? (bytes : List UInt8) : Option String := String.fromUTF8? ⟨bytes.toArray⟩

@[simp] theorem ofUtf8?_utf8 (s : String) : ofUtf8? (utf8 s) = some s := by
  have h : (ByteArray.mk (utf8 s).toArray) = s.toUTF8 := by
    simp [utf8]
  rw [ofUtf8?, h]
  simp [String.fromUTF8?, String.fromUTF8, s.isValidUTF8, String.toUTF8]

theorem eq_utf8_of_ofUtf8? {bytes : List UInt8} {s : String} (h : ofUtf8? bytes = some s) :
    bytes = utf8 s := by
  unfold ofUtf8? String.fromUTF8? at h
  split at h
  · obtain rfl := Option.some.inj h
    simp [utf8, String.fromUTF8, String.toUTF8]
  · cases h

end GrammarEngine.Text
