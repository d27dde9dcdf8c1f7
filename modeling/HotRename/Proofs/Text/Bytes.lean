import HotRename.Text.Offset

/-!
# Offsets and the bytes of a text

The offsets of `Text.Offset` count bytes, yet its functions work on characters. This module ties
them to the UTF-8 bytes of the text: at a boundary, taking and dropping characters is taking and
dropping bytes. Main statements:

* `isBoundary_iff`       a boundary splits the characters in two
* `utf8_replaceBytes`    replacing a range between boundaries replaces exactly its bytes
* `isBoundary_replaceBytes`  a boundary in front of the range stays one
-/

namespace HotRename.Text

/-- The bytes of a text. -/
def bytes (text : String) : List UInt8 :=
  text.toUTF8.data.toList

/-- The bytes of characters. -/
def utf8 (cs : List Char) : List UInt8 :=
  cs.flatMap String.utf8EncodeChar

/-- The bytes of two parts follow each other. -/
@[simp] theorem utf8_append (a b : List Char) : utf8 (a ++ b) = utf8 a ++ utf8 b := by
  simp [utf8]

/-- The number of bytes is the length that is counted. -/
@[simp] theorem length_utf8 (cs : List Char) : (utf8 cs).length = byteLength cs := by
  induction cs with
  | nil => rfl
  | cons c cs ih =>
    rw [utf8, List.flatMap_cons, List.length_append, String.length_utf8EncodeChar, byteLength]
    rw [show (cs.flatMap String.utf8EncodeChar).length = byteLength cs from ih]

/-- The bytes of a text made of characters. -/
theorem bytes_ofList (cs : List Char) : bytes (String.ofList cs) = utf8 cs := by
  simp [bytes, utf8, String.toUTF8, List.utf8Encode]

/-- The bytes of a text are those of its characters. -/
theorem bytes_eq_utf8 (text : String) : bytes text = utf8 text.toList := by
  rw [← bytes_ofList, String.ofList_toList]

/-- Every character has a byte. -/
theorem byteLength_pos {cs : List Char} (h : cs ≠ []) : 0 < byteLength cs := by
  cases cs with
  | nil => exact absurd rfl h
  | cons c cs =>
    have := c.utf8Size_pos
    rw [byteLength]
    omega

/-- A text is known by its bytes. -/
theorem bytes_injective {a b : String} (h : bytes a = bytes b) : a = b := by
  have harray : a.toUTF8 = b.toUTF8 := ByteArray.ext (Array.toList_inj.mp h)
  exact String.toByteArray_inj.mp harray

/-! ## Boundaries -/

/-- The end of a part of the text is a boundary. -/
theorem isBoundary_byteLength (a b : List Char) : isBoundary (byteLength a) (a ++ b) = true := by
  induction a with
  | nil => simp [byteLength, isBoundary]
  | cons c cs ih =>
    have hpos := c.utf8Size_pos
    -- The offset is not zero, so the first character is skipped.
    obtain ⟨n, hn⟩ : ∃ n, byteLength (c :: cs) = n + 1 :=
      ⟨c.utf8Size - 1 + byteLength cs, by simp only [byteLength]; omega⟩
    have hrest : n + 1 - c.utf8Size = byteLength cs := by
      simp only [byteLength] at hn
      omega
    have hle : c.utf8Size ≤ n + 1 := by
      simp only [byteLength] at hn
      omega
    rw [hn, List.cons_append, isBoundary, hrest, ih]
    simp [hle]

/-- A boundary splits the characters in two. -/
theorem isBoundary_iff {n : Nat} {cs : List Char} :
    isBoundary n cs = true ↔ ∃ a b, cs = a ++ b ∧ byteLength a = n := by
  constructor
  · intro h
    exact ⟨takeBytes n cs, dropBytes n cs, by simp, byteLength_takeBytes h⟩
  · rintro ⟨a, b, rfl, rfl⟩
    exact isBoundary_byteLength a b

/-- Taking as many bytes as the first part has gives the first part. -/
theorem takeBytes_byteLength (a b : List Char) : takeBytes (byteLength a) (a ++ b) = a := by
  induction a with
  | nil =>
    cases b with
    | nil => rfl
    | cons c cs =>
      have hpos := c.utf8Size_pos
      simp [takeBytes, byteLength, show ¬ c.utf8Size ≤ 0 by omega]
  | cons c cs ih => simp [takeBytes, byteLength, ih]

/-- Dropping them gives the second part. -/
theorem dropBytes_byteLength (a b : List Char) : dropBytes (byteLength a) (a ++ b) = b := by
  have h := takeBytes_append_dropBytes (byteLength a) (a ++ b)
  rw [takeBytes_byteLength] at h
  exact List.append_cancel_left h

/-- A text has one cut at each offset. -/
theorem append_inj_of_byteLength {a a' b b' : List Char} (h : a ++ b = a' ++ b')
    (hbytes : byteLength a = byteLength a') : a = a' ∧ b = b' := by
  have ha := takeBytes_byteLength a b
  have hb := dropBytes_byteLength a b
  rw [h, hbytes, takeBytes_byteLength] at ha
  rw [h, hbytes, dropBytes_byteLength] at hb
  exact ⟨ha.symm, hb.symm⟩

/-- What lies in front of a boundary is as long as the boundary says. -/
theorem boundary_le {n : Nat} {cs : List Char} (h : isBoundary n cs = true) :
    n ≤ byteLength cs := by
  obtain ⟨a, b, rfl, rfl⟩ := isBoundary_iff.mp h
  rw [byteLength_append]
  omega

/-- A boundary stays one when text is added behind it. -/
theorem isBoundary_append {n : Nat} {a : List Char} (h : isBoundary n a = true) (b : List Char) :
    isBoundary n (a ++ b) = true := by
  obtain ⟨a₁, a₂, rfl, rfl⟩ := isBoundary_iff.mp h
  exact isBoundary_iff.mpr ⟨a₁, a₂ ++ b, by simp, rfl⟩

/-- Of two boundaries the first is one of the text in front of the second. -/
theorem isBoundary_takeBytes {m n : Nat} {cs : List Char} (hmn : m ≤ n)
    (hm : isBoundary m cs = true) (hn : isBoundary n cs = true) :
    isBoundary m (takeBytes n cs) = true := by
  obtain ⟨a, b, hab, rfl⟩ := isBoundary_iff.mp hm
  obtain ⟨c, d, hcd, rfl⟩ := isBoundary_iff.mp hn
  subst hab
  rw [hcd, takeBytes_byteLength]
  -- Both parts start the same text, and the shorter one starts the longer one.
  have hlen : (utf8 a).length ≤ (utf8 c).length := by simpa using hmn
  rcases List.prefix_or_prefix_of_prefix (List.prefix_append a b) ⟨d, hcd.symm⟩ with hac | hca
  · obtain ⟨t, rfl⟩ := hac
    exact isBoundary_byteLength a t
  · obtain ⟨t, rfl⟩ := hca
    have ht : byteLength t = 0 := by
      rw [length_utf8, length_utf8, byteLength_append] at hlen
      omega
    rw [byteLength_append, ht, Nat.add_zero]
    simpa using isBoundary_byteLength c []

/-! ## Bytes before and behind a boundary -/

/-- At a boundary, characters and bytes are taken alike. -/
theorem utf8_takeBytes {n : Nat} {cs : List Char} (h : isBoundary n cs = true) :
    utf8 (takeBytes n cs) = (utf8 cs).take n := by
  obtain ⟨a, b, rfl, rfl⟩ := isBoundary_iff.mp h
  rw [takeBytes_byteLength, utf8_append, ← length_utf8, List.take_left]

/-- So they are dropped. -/
theorem utf8_dropBytes {n : Nat} {cs : List Char} (h : isBoundary n cs = true) :
    utf8 (dropBytes n cs) = (utf8 cs).drop n := by
  obtain ⟨a, b, rfl, rfl⟩ := isBoundary_iff.mp h
  rw [dropBytes_byteLength, utf8_append, ← length_utf8, List.drop_left]

/-- Replacing a range between boundaries replaces exactly its bytes. -/
theorem utf8_replaceBytes {start stop : Nat} {cs : List Char} (new : List Char)
    (hstart : isBoundary start cs = true) (hstop : isBoundary stop cs = true) :
    utf8 (replaceBytes cs start stop new) =
      (utf8 cs).take start ++ utf8 new ++ (utf8 cs).drop stop := by
  rw [replaceBytes, utf8_append, utf8_append, utf8_takeBytes hstart, utf8_dropBytes hstop]

/-- Replacing the bytes of a part of a text replaces the part. -/
theorem replaceBytes_middle (a old b new : List Char) :
    replaceBytes (a ++ old ++ b) (byteLength a) (byteLength a + byteLength old) new =
      a ++ new ++ b := by
  rw [replaceBytes, ← byteLength_append, dropBytes_byteLength, List.append_assoc a old,
    takeBytes_byteLength]

/-- A boundary in front of the replaced range stays one. -/
theorem isBoundary_replaceBytes {n start stop : Nat} {cs : List Char} (new : List Char)
    (hle : n ≤ start) (hn : isBoundary n cs = true) (hstart : isBoundary start cs = true) :
    isBoundary n (replaceBytes cs start stop new) = true := by
  rw [replaceBytes, List.append_assoc]
  exact isBoundary_append (isBoundary_takeBytes hle hn hstart) _

end HotRename.Text
