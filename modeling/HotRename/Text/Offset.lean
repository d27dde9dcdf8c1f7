/-!
# Byte offsets into a text

Positions in a text are counted in bytes of its UTF-8 form. A text is handled as the list of its
characters, each of which takes `Char.utf8Size` bytes, so an offset between two characters splits
the list in two. Main definitions:

* `byteLength`  number of bytes of a list of characters
* `isBoundary`  the offset lies between two characters, or at either end
* `takeBytes`, `dropBytes`  the characters before and from an offset on
* `replaceBytes`  the text with the bytes of a range replaced
-/

namespace HotRename.Text

/-- Number of bytes the characters take in UTF-8. -/
def byteLength : List Char → Nat
  | [] => 0
  | c :: cs => c.utf8Size + byteLength cs

/-- The offset `n` is at the end of the text or at the first byte of one of its characters. -/
def isBoundary : Nat → List Char → Bool
  | 0, _ => true
  | _ + 1, [] => false
  -- An offset inside the first character is no boundary.
  | n + 1, c :: cs => c.utf8Size ≤ n + 1 && isBoundary (n + 1 - c.utf8Size) cs

/-- The characters that end at or before the offset `n`. -/
def takeBytes : Nat → List Char → List Char
  | _, [] => []
  | n, c :: cs => if c.utf8Size ≤ n then c :: takeBytes (n - c.utf8Size) cs else []

/-- The characters that end after the offset `n`. -/
def dropBytes : Nat → List Char → List Char
  | _, [] => []
  | n, c :: cs => if c.utf8Size ≤ n then dropBytes (n - c.utf8Size) cs else c :: cs

/-- The characters from the offset `start` up to the offset `stop`. -/
def sliceBytes (cs : List Char) (start stop : Nat) : List Char :=
  takeBytes (stop - start) (dropBytes start cs)

/-- The text with the bytes `start` up to `stop` replaced by `new`. -/
def replaceBytes (cs : List Char) (start stop : Nat) (new : List Char) : List Char :=
  takeBytes start cs ++ new ++ dropBytes stop cs

/-! ## How the parts fit together -/

/-- No character is lost by splitting a text at an offset. -/
@[simp] theorem takeBytes_append_dropBytes (n : Nat) (cs : List Char) :
    takeBytes n cs ++ dropBytes n cs = cs := by
  induction cs generalizing n with
  | nil => rfl
  | cons c cs ih => simp only [takeBytes, dropBytes]; split <;> simp [ih]

/-- Bytes add up over an append. -/
@[simp] theorem byteLength_append (a b : List Char) :
    byteLength (a ++ b) = byteLength a + byteLength b := by
  induction a with
  | nil => simp [byteLength]
  | cons c cs ih => simp [byteLength, ih, Nat.add_assoc]

/-- The part before a boundary takes exactly the bytes up to it. -/
theorem byteLength_takeBytes {n : Nat} {cs : List Char} (h : isBoundary n cs = true) :
    byteLength (takeBytes n cs) = n := by
  induction cs generalizing n with
  | nil =>
    cases n with
    | zero => rfl
    | succ n => simp [isBoundary] at h
  | cons c cs ih =>
    -- No character takes zero bytes, so up to the offset zero there is none.
    have hpos := c.utf8Size_pos
    cases n with
    | zero => simp [takeBytes, byteLength, show ¬ c.utf8Size ≤ 0 by omega]
    | succ n =>
      simp only [isBoundary, Bool.and_eq_true, decide_eq_true_eq] at h
      simp only [takeBytes, h.1, if_true, byteLength, ih h.2]
      omega

end HotRename.Text
