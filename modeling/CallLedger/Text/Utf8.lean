/-!
# Text as bytes

The UTF-8 form of a text as a plain list of bytes, which the hash, the binary dump format and
the reader of event files work on.
-/

namespace CallLedger.Text

/-- The UTF-8 bytes of a text. -/
def utf8 (text : String) : List UInt8 := text.toUTF8.data.toList

/-- The text whose UTF-8 form the bytes are, if they are well formed. -/
def ofUtf8? (bytes : List UInt8) : Option String := String.fromUTF8? ⟨bytes.toArray⟩

theorem ofUtf8?_utf8 (text : String) : ofUtf8? (utf8 text) = some text := by
  have same : (⟨(utf8 text).toArray⟩ : ByteArray) = text.toByteArray := by simp [utf8]
  rw [ofUtf8?, same, String.fromUTF8?, dif_pos text.isValidUTF8]
  rfl

theorem eq_utf8_of_ofUtf8? {bytes : List UInt8} {text : String}
    (h : ofUtf8? bytes = some text) : bytes = utf8 text := by
  unfold ofUtf8? String.fromUTF8? at h
  split at h
  · rw [← Option.some.inj h]
    rfl
  · contradiction

/-- Exactly the UTF-8 form of a text is read as that text. -/
theorem ofUtf8?_eq_some_iff {bytes : List UInt8} {text : String} :
    ofUtf8? bytes = some text ↔ bytes = utf8 text :=
  ⟨eq_utf8_of_ofUtf8?, fun h => h ▸ ofUtf8?_utf8 text⟩

end CallLedger.Text
