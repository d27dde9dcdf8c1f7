import HotRename.Proofs.Text.Pieces

/-!
# The mask keeps positions

The mask puts a space in the place of every byte of a comment, but for line ends, and keeps every
other byte. So offsets into the mask are offsets into the source: lines, characters outside comments
and the boundaries between characters are where they were. A second mask finds no comments, since
the first one leaves no mark that opens one. Main statements:

* `utf8_masked`                what the mask makes of the bytes of a piece
* `byte_of_inComment`          what the mask makes of a byte of a comment
* `byte_of_not_inComment`      what it makes of any other byte
* `maskFrom_maskFrom`          a mask is read again without any change
* `maskComments_positions`     all of this for a source text
-/

namespace HotRename.Text

/-! ## Bytes and characters -/

/-- The bytes of a part of a text. -/
theorem byte_middle (x : List Char) {w : List Char} (y : List Char) {k : Nat}
    (hk : k < byteLength w) : (utf8 (x ++ w ++ y))[byteLength x + k]? = (utf8 w)[k]? := by
  rw [← length_utf8] at hk
  rw [List.append_assoc, utf8_append, utf8_append, ← length_utf8 x,
    List.getElem?_append_right (Nat.le_add_right _ _), Nat.add_sub_cancel_left,
    List.getElem?_append_left hk]

/-- A byte below 128 encodes the character of that number. -/
theorem toNat_of_mem_utf8EncodeChar {c : Char} {b : UInt8} (h : b ∈ String.utf8EncodeChar c)
    (hb : b.toNat < 128) : c.toNat = b.toNat := by
  have hvalue : c.toNat = c.val.toNat := rfl
  simp only [String.utf8EncodeChar] at h
  split at h
  · rw [List.mem_singleton.mp h, UInt8.toNat_ofNat']
    omega
  · -- The bytes of a longer encoding are all above.
    split at h
    · simp only [List.mem_cons, List.not_mem_nil, or_false] at h
      rcases h with rfl | rfl <;> rw [UInt8.toNat_ofNat'] at hb <;> omega
    · split at h
      · simp only [List.mem_cons, List.not_mem_nil, or_false] at h
        rcases h with rfl | rfl | rfl <;> rw [UInt8.toNat_ofNat'] at hb <;> omega
      · simp only [List.mem_cons, List.not_mem_nil, or_false] at h
        rcases h with rfl | rfl | rfl | rfl <;> rw [UInt8.toNat_ofNat'] at hb <;> omega

/-- A character has such a byte only if it is the byte. -/
theorem eq_of_mem_utf8EncodeChar {c d : Char} (hd : d.toNat < 128)
    (h : UInt8.ofNat d.toNat ∈ String.utf8EncodeChar c) : c = d := by
  have hbyte : (UInt8.ofNat d.toNat).toNat = d.toNat := by
    rw [UInt8.toNat_ofNat']
    omega
  have hnum := toNat_of_mem_utf8EncodeChar h (by omega)
  exact Char.toNat_inj.mp (hnum.trans hbyte)

/-- What the mask makes of a byte of a comment: a space, unless it ends a line. -/
def blankByte (b : UInt8) : UInt8 :=
  if b = 0x0A then 0x0A else 0x20

/-- A character is blanked out byte by byte. -/
theorem utf8_blankOut (c : Char) :
    utf8 (blankOut c) = (String.utf8EncodeChar c).map blankByte := by
  by_cases hc : c = '\n'
  · subst hc
    decide
  · have hspaces : (String.utf8EncodeChar c).map blankByte =
        List.replicate c.utf8Size 0x20 := by
      rw [List.eq_replicate_iff, List.length_map, String.length_utf8EncodeChar]
      refine ⟨rfl, fun b hb => ?_⟩
      obtain ⟨b, hmem, rfl⟩ := List.mem_map.mp hb
      -- No byte of another character is that of a line end.
      have hne : b ≠ 0x0A := by
        rintro rfl
        exact hc (eq_of_mem_utf8EncodeChar (d := '\n') (by decide) hmem)
      rw [blankByte, if_neg hne]
    rw [blankOut, if_neg hc, hspaces, utf8, List.flatMap_replicate]
    exact List.flatten_replicate_singleton

/-- So are several. -/
theorem utf8_flatMap_blankOut (cs : List Char) :
    utf8 (cs.flatMap blankOut) = (utf8 cs).map blankByte := by
  induction cs with
  | nil => rfl
  | cons c cs ih =>
    rw [List.flatMap_cons, utf8_append, utf8_blankOut, ih, ← List.map_append]
    rfl

namespace Piece

/-- The bytes of a comment are blanked out one by one, and those of any other piece are kept. -/
theorem utf8_masked (p : Piece) :
    utf8 p.masked = (utf8 p.text).map (if p.isComment then blankByte else id) := by
  unfold masked
  split
  · exact utf8_flatMap_blankOut p.text
  · exact (List.map_id _).symm

/-- A piece keeps its length. -/
theorem byteLength_masked (p : Piece) : byteLength p.masked = byteLength p.text := by
  rw [← length_utf8, utf8_masked, List.length_map, length_utf8]

/-- So do several pieces. -/
theorem byteLength_flatMap_masked (ps : List Piece) :
    byteLength (ps.flatMap masked) = byteLength (ps.flatMap text) := by
  induction ps with
  | nil => rfl
  | cons p ps ih =>
    rw [List.flatMap_cons, List.flatMap_cons, byteLength_append, byteLength_append,
      byteLength_masked, ih]

end Piece

/-! ## Comments -/

/-- The byte at the offset belongs to a comment. -/
def InComment (source : List Char) (n : Nat) : Prop :=
  ∃ before p after, Division source (before ++ p :: after) ∧ Piece.isComment p = true ∧
    byteLength (before.flatMap Piece.text) ≤ n ∧
      n < byteLength (before.flatMap Piece.text) + byteLength p.text

section Byte

variable {source : List Char} {n : Nat}

/-- What the mask makes of a byte depends on the piece that it belongs to. -/
theorem byte_of_piece {before after : List Piece} {p : Piece}
    (h : Division source (before ++ p :: after))
    (hle : byteLength (before.flatMap Piece.text) ≤ n)
    (hlt : n < byteLength (before.flatMap Piece.text) + byteLength p.text) :
    (utf8 (maskComments source))[n]? =
      (utf8 source)[n]?.map (if p.isComment then blankByte else id) := by
  obtain ⟨k, rfl⟩ := Nat.exists_eq_add_of_le hle
  have hk : k < byteLength p.text := by omega
  have hmask : maskComments source =
      before.flatMap Piece.masked ++ p.masked ++ after.flatMap Piece.masked := by
    rw [h.mask_eq, List.flatMap_append, List.flatMap_cons, List.append_assoc]
  have hsource : source = before.flatMap Piece.text ++ p.text ++ after.flatMap Piece.text := by
    rw [List.append_assoc, ← List.flatMap_cons, ← List.flatMap_append]
    exact h.text_eq
  -- In both texts the piece stands behind the same number of bytes.
  have hfront := Piece.byteLength_flatMap_masked before
  have hlength := p.byteLength_masked
  calc (utf8 (maskComments source))[byteLength (before.flatMap Piece.text) + k]?
      = (utf8 p.masked)[k]? := by rw [hmask, ← hfront, byte_middle _ _ (by omega)]
    _ = (utf8 p.text)[k]?.map (if p.isComment then blankByte else id) := by
        rw [Piece.utf8_masked, List.getElem?_map]
    _ = _ := by rw [← byte_middle _ (after.flatMap Piece.text) hk, ← hsource]

/-- Every byte belongs to a piece. -/
theorem exists_piece_at {ps : List Piece} (h : n < byteLength (ps.flatMap Piece.text)) :
    ∃ before p after, ps = before ++ p :: after ∧ byteLength (before.flatMap Piece.text) ≤ n ∧
      n < byteLength (before.flatMap Piece.text) + byteLength (Piece.text p) := by
  induction ps generalizing n with
  | nil => simp [byteLength] at h
  | cons p ps ih =>
    by_cases hfirst : n < byteLength p.text
    · exact ⟨[], p, ps, rfl, by simp [byteLength], by simpa [byteLength] using hfirst⟩
    · rw [List.flatMap_cons, byteLength_append] at h
      -- The byte lies behind the first piece, so it is counted from there.
      have hrest : n - byteLength p.text < byteLength (ps.flatMap Piece.text) := by omega
      obtain ⟨before, q, after, rfl, hle, hlt⟩ := ih hrest
      refine ⟨p :: before, q, after, rfl, ?_, ?_⟩
      · rw [List.flatMap_cons, byteLength_append]
        omega
      · rw [List.flatMap_cons, byteLength_append]
        omega

/-- A byte of a comment is blanked out. -/
theorem byte_of_inComment (h : InComment source n) :
    (utf8 (maskComments source))[n]? = (utf8 source)[n]?.map blankByte := by
  obtain ⟨before, p, after, hdivision, hcomment, hle, hlt⟩ := h
  rw [byte_of_piece hdivision hle hlt, if_pos hcomment]

/-- The mask is as long as the text. -/
theorem length_maskComments (source : List Char) :
    byteLength (maskComments source) = byteLength source :=
  (masked_maskFrom .code source).byteLength_eq

/-- Every other byte is kept. -/
theorem byte_of_not_inComment (h : ¬ InComment source n) :
    (utf8 (maskComments source))[n]? = (utf8 source)[n]? := by
  by_cases hn : n < byteLength source
  · obtain ⟨ps, hdivision⟩ := exists_division source
    obtain ⟨before, p, after, rfl, hle, hlt⟩ := exists_piece_at (hdivision.text_eq ▸ hn)
    -- The piece that the byte belongs to is no comment.
    have hcode : p.isComment = false := by
      rw [← Bool.not_eq_true]
      exact fun hcomment => h ⟨before, p, after, hdivision, hcomment, hle, hlt⟩
    rw [byte_of_piece hdivision hle hlt, hcode]
    exact Option.map_id'
  · -- Behind its end, neither text has any bytes.
    rw [List.getElem?_eq_none, List.getElem?_eq_none]
    · rw [length_utf8]
      omega
    · rw [length_utf8, length_maskComments]
      omega

end Byte

/-! ## Characters -/

/-- Where the text is cut, its mask can be cut. -/
theorem Masked.exists_append {a b ms : List Char} (h : Masked (a ++ b) ms) :
    ∃ x y, ms = x ++ y ∧ Masked a x ∧ Masked b y := by
  induction a generalizing ms with
  | nil => exact ⟨[], ms, rfl, .nil, h⟩
  | cons c a ih =>
    cases h with
    | keep c h =>
      obtain ⟨x, y, rfl, hx, hy⟩ := ih h
      exact ⟨c :: x, y, rfl, .keep c hx, hy⟩
    | blank c h =>
      obtain ⟨x, y, rfl, hx, hy⟩ := ih h
      exact ⟨blankOut c ++ x, y, by rw [List.append_assoc], .blank c hx, hy⟩

/-- A boundary of the source is one of the mask. -/
theorem isBoundary_maskComments {source : List Char} {n : Nat}
    (h : isBoundary n source = true) : isBoundary n (maskComments source) = true := by
  obtain ⟨a, b, rfl, rfl⟩ := isBoundary_iff.mp h
  obtain ⟨x, y, hmask, hx, -⟩ := (masked_maskFrom .code (a ++ b)).exists_append
  exact isBoundary_iff.mpr ⟨x, y, hmask, hx.byteLength_eq⟩

/-- The byte behind a part of a text is the first of the rest. -/
theorem byte_behind (a b : List Char) : (utf8 (a ++ b))[byteLength a]? = (utf8 b).head? := by
  rw [utf8_append, ← length_utf8, List.getElem?_append_right (Nat.le_refl _), Nat.sub_self,
    List.head?_eq_getElem?]

/-- A character whose first byte would not change is not changed when it is blanked out. -/
theorem blankOut_of_blankByte {c : Char} {b : UInt8} {bs : List UInt8}
    (hbytes : String.utf8EncodeChar c = b :: bs) (hb : blankByte b = b) : blankOut c = [c] := by
  have hmem : b ∈ String.utf8EncodeChar c := by
    rw [hbytes]
    exact List.mem_cons_self
  -- Such a byte ends a line or is a space, and then it is the whole character.
  unfold blankByte at hb
  split at hb
  · subst hb
    have hc : c = '\n' := eq_of_mem_utf8EncodeChar (d := '\n') (by decide) hmem
    rw [hc]
    rfl
  · subst hb
    have hc : c = ' ' := eq_of_mem_utf8EncodeChar (d := ' ') (by decide) hmem
    rw [hc]
    rfl

/-- A character outside comments is kept at its offset. -/
theorem exists_char_of_not_inComment {before after : List Char} {c : Char}
    (h : ¬ InComment (before ++ c :: after) (byteLength before)) :
    ∃ x y, maskComments (before ++ c :: after) = x ++ c :: y ∧
      byteLength x = byteLength before := by
  obtain ⟨x, y, hmask, hx, hy⟩ := (masked_maskFrom .code (before ++ c :: after)).exists_append
  have hlen := hx.byteLength_eq
  generalize hrest : c :: after = rest at hy
  cases hy with
  | nil => cases hrest
  | @keep d cs ms hy =>
    obtain ⟨rfl, rfl⟩ := List.cons.inj hrest
    exact ⟨x, ms, hmask, hlen⟩
  | @blank d cs ms hy =>
    obtain ⟨rfl, rfl⟩ := List.cons.inj hrest
    -- Its first byte is kept, so it was blank before if it is blanked out.
    have hkept := byte_of_not_inComment h
    rw [byte_behind, maskComments, hmask, ← hlen, byte_behind, utf8_append, utf8_blankOut] at hkept
    cases hbytes : String.utf8EncodeChar c with
    | nil =>
      have hsize := String.length_utf8EncodeChar c
      have hpos := c.utf8Size_pos
      rw [hbytes, List.length_nil] at hsize
      omega
    | cons b bs =>
      simp only [utf8, List.flatMap_cons, hbytes, List.map_cons, List.cons_append, List.head?_cons,
        Option.some.injEq] at hkept
      rw [blankOut_of_blankByte hbytes hkept] at hmask
      exact ⟨x, ms, hmask, hlen⟩

/-! ## The mask of a mask -/

/-- What is blanked out is a space or a line end. -/
theorem eq_of_mem_blankOut {c d : Char} (h : d ∈ blankOut c) : d = ' ' ∨ d = '\n' := by
  unfold blankOut at h
  split at h
  · exact .inr (List.mem_singleton.mp h)
  · exact .inl (List.mem_replicate.mp h).2

/-- What was blanked out is read as code, and kept. -/
theorem maskFrom_blanks {bs : List Char} (hbs : ∀ b ∈ bs, b = ' ' ∨ b = '\n') (cs : List Char) :
    maskFrom .code (bs ++ cs) = bs ++ maskFrom .code cs := by
  induction bs with
  | nil => rfl
  | cons b bs ih =>
    obtain ⟨hb, hrest⟩ := List.forall_mem_cons.mp hbs
    rcases hb with rfl | rfl <;> simp [maskFrom, ih hrest]

/-- A mask starts with a blank, or with the character with which the text starts. -/
theorem head?_of_maskFrom {r : Region} {cs ms : List Char} {d : Char}
    (h : maskFrom r cs = d :: ms) (hspace : d ≠ ' ') (hline : d ≠ '\n') :
    cs.head? = some d := by
  have hmasked := masked_maskFrom r cs
  rw [h] at hmasked
  generalize hm : d :: ms = m at hmasked
  cases hmasked with
  | nil => cases hm
  | keep c hrest =>
    obtain ⟨rfl, -⟩ := List.cons.inj hm
    rfl
  -- A character that was blanked out leaves blanks.
  | blank c hrest =>
    cases hblank : blankOut c with
    | nil => exact absurd hblank (blankOut_ne_nil c)
    | cons b bs =>
      rw [hblank] at hm
      obtain ⟨rfl, -⟩ := List.cons.inj hm
      rcases eq_of_mem_blankOut (c := c) (d := d) (by simp [hblank]) with rfl | rfl
      · exact absurd rfl hspace
      · exact absurd rfl hline

/-- The region in which the mask of a text is read: what was a comment is code. -/
def Region.reread (r : Region) : Region :=
  if r.isComment then .code else r

/-- A mask is read again without any change: its blanks are code, and no two of its characters come
    to open a comment that did not open one before. -/
theorem maskFrom_maskFrom (r : Region) (cs : List Char) :
    maskFrom r.reread (maskFrom r cs) = maskFrom r cs := by
  have hblanks {bs ms : List Char} (hbs : ∀ b ∈ bs, b = ' ' ∨ b = '\n')
      (hms : maskFrom .code ms = ms) : maskFrom .code (bs ++ ms) = bs ++ ms := by
    rw [maskFrom_blanks hbs, hms]
  have hmarks : ∀ b ∈ [' ', ' '], b = ' ' ∨ b = '\n' := by simp
  fun_induction maskFrom r cs with
  | case1 r => cases r <;> rfl
  | case2 cs ih => exact hblanks hmarks ih
  | case3 cs ih => exact hblanks hmarks ih
  | case4 c cs hline hblock ih =>
    show maskFrom .code (c :: _) = _
    have hsame : (if c = '"' ∨ c = '\'' then Region.literal c else .code).reread =
        if c = '"' ∨ c = '\'' then .literal c else .code := by
      split <;> rfl
    rw [hsame] at ih
    rw [maskFrom, ih]
    -- A slash is followed by what it was followed by, or by a blank.
    · intro ms hc hms
      obtain ⟨cs', hcs⟩ := List.head?_eq_some_iff.mp
        (head?_of_maskFrom hms (by decide) (by decide))
      exact hline cs' hc hcs
    · intro ms hc hms
      obtain ⟨cs', hcs⟩ := List.head?_eq_some_iff.mp
        (head?_of_maskFrom hms (by decide) (by decide))
      exact hblock cs' hc hcs
  | case5 c cs ih =>
    have hcode : (if c = '\n' then Region.code else .lineComment).reread = .code := by
      split <;> rfl
    rw [hcode] at ih
    exact hblanks (fun b => eq_of_mem_blankOut) ih
  | case6 cs ih => exact hblanks hmarks ih
  | case7 c cs hclose ih => exact hblanks (fun b => eq_of_mem_blankOut) ih
  | case8 quote => rfl
  | case9 quote c cs ih =>
    show maskFrom (.literal quote) _ = _
    rw [maskFrom]
    exact congrArg ('\\' :: c :: ·) ih
  | case10 quote c cs hend hescape ih =>
    show maskFrom (.literal quote) (c :: _) = _
    have hsame : (if c = quote ∨ c = '\n' then Region.code else .literal quote).reread =
        if c = quote ∨ c = '\n' then .code else .literal quote := by
      split <;> rfl
    have hplain : c ≠ '\\' := by
      intro hc
      cases cs with
      | nil => exact hend hc rfl
      | cons d cs => exact hescape d cs hc rfl
    rw [hsame] at ih
    rw [maskFrom, ih]
    · exact fun hc _ => hplain hc
    · exact fun _ _ hc _ => hplain hc

/-! ## Positions -/

/-- The second text is the first with its comments blanked out, and nothing in it has moved. -/
structure MaskedInPlace (source mask : List Char) : Prop where
  length : byteLength mask = byteLength source
  lines : ∀ n : Nat, (utf8 mask)[n]? = some 0x0A ↔ (utf8 source)[n]? = some 0x0A
  /-- Every byte is that of the source, or a space for a byte of a comment. -/
  bytes : ∀ n : Nat, (utf8 mask)[n]? = (utf8 source)[n]? ∨
    (utf8 mask)[n]? = some 0x20 ∧ InComment source n
  /-- Of a comment only the line ends are left. -/
  comments : ∀ n, InComment source n → (utf8 source)[n]? ≠ some 0x0A →
    (utf8 mask)[n]? = some 0x20
  boundaries : ∀ n, isBoundary n source = true → isBoundary n mask = true
  /-- Every character outside comments is kept at its offset. -/
  characters : ∀ before c after, source = before ++ c :: after →
    ¬ InComment source (byteLength before) →
    ∃ before' after', mask = before' ++ c :: after' ∧ byteLength before' = byteLength before

/-- A byte of a comment is a byte of the text. -/
theorem InComment.exists_byte {source : List Char} {n : Nat} (h : InComment source n) :
    ∃ b, (utf8 source)[n]? = some b := by
  obtain ⟨before, p, after, hdivision, -, -, hlt⟩ := h
  refine ⟨_, List.getElem?_eq_getElem ?_⟩
  rw [length_utf8, hdivision.text_eq, List.flatMap_append, List.flatMap_cons, byteLength_append,
    byteLength_append]
  omega

/-- The mask of a text is the text with its comments blanked out in place. -/
theorem maskedInPlace_maskComments (source : List Char) :
    MaskedInPlace source (maskComments source) where
  length := length_maskComments source
  lines n := by
    -- A line end in a comment is blanked out to itself.
    by_cases h : InComment source n
    · obtain ⟨b, hb⟩ := h.exists_byte
      rw [byte_of_inComment h, hb, Option.map_some, Option.some.injEq, Option.some.injEq, blankByte]
      split <;> simp_all
    · rw [byte_of_not_inComment h]
  bytes n := by
    by_cases h : InComment source n
    · obtain ⟨b, hb⟩ := h.exists_byte
      rw [byte_of_inComment h, hb, Option.map_some, blankByte]
      split
      · rename_i hline
        exact .inl (by rw [hline])
      · exact .inr ⟨rfl, h⟩
    · exact .inl (byte_of_not_inComment h)
  comments n h hline := by
    obtain ⟨b, hb⟩ := h.exists_byte
    have hne : b ≠ 0x0A := fun heq => hline (by rw [hb, heq])
    rw [byte_of_inComment h, hb, Option.map_some, blankByte, if_neg hne]
  boundaries _ := isBoundary_maskComments
  characters before c after hsource h := by
    subst hsource
    exact exists_char_of_not_inComment h

/-- Every source text can be cut into comments, string literals and characters of the code. The mask
    blanks out its comments in place, so that nothing in it moves, and a second mask changes
    nothing. -/
theorem maskComments_positions (source : List Char) :
    (∃ pieces, Division source pieces) ∧ MaskedInPlace source (maskComments source) ∧
      maskComments (maskComments source) = maskComments source :=
  ⟨exists_division source, maskedInPlace_maskComments source, maskFrom_maskFrom .code source⟩

-- A comment mark in a literal, an escaped quote, and a comment with a character of two bytes.
example : maskComments "\"//\\\"\" /*é*/ x // y".toList = "\"//\\\"\"        x     ".toList := by
  decide

end HotRename.Text
