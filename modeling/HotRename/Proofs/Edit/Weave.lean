import HotRename.Proofs.Edit.Substitution

/-!
# What a splice keeps

The spans of the edits of a file cut its text into parts that are kept and parts that are replaced.
A splice keeps the former in their order and puts the new texts in the place of the latter, so the
old and the new text are woven from the same parts. Main statements:

* `substitute_eq_weave`  a substitution puts the new texts between the kept parts
* `weave_kept`           with the replaced parts between them, the kept parts are the old text
* `exists_place`         where a new text stands after the substitution
* `apply_eq_weave`       all of this for the splice of a file
-/

namespace HotRename.Splice

/-- The bytes from `start` up to `stop`. -/
def slice (bytes : List UInt8) (start stop : Nat) : List UInt8 :=
  (bytes.take stop).drop start

/-- The parts in front of the spans, between them and behind them, from the offset `done` on. -/
def kept (bytes : List UInt8) : (done : Nat) → List Span → List (List UInt8)
  | done, [] => [bytes.drop done]
  | done, span :: spans => slice bytes done span.start :: kept bytes span.stop spans

/-- The parts in their order, with one of the texts after each part but the last. -/
def weave : (parts texts : List (List UInt8)) → List UInt8
  | part :: parts, text :: texts => part ++ text ++ weave parts texts
  | parts, _ => parts.flatten

/-- The number of bytes that the edit takes away. -/
def width (e : TextEdit) : Nat :=
  e.stop - e.start

/-- The number of bytes that the edit puts in their place. -/
def newLength (e : TextEdit) : Nat :=
  (Text.bytes e.newText).length

/-- The sum of the given numbers of all edits. -/
def total (size : TextEdit → Nat) : List TextEdit → Nat
  | [] => 0
  | e :: es => size e + total size es

/-- A slice and what follows it. -/
theorem slice_append_drop (bytes : List UInt8) {a b : Nat} (hab : a ≤ b) :
    slice bytes a b ++ bytes.drop b = bytes.drop a := by
  have hdrop : bytes.drop b = (bytes.drop a).drop (b - a) := by
    rw [List.drop_drop, Nat.add_sub_cancel' hab]
  rw [slice, List.drop_take, hdrop, List.take_append_drop]

/-- The length of a slice inside the text. -/
theorem length_slice {bytes : List UInt8} {a b : Nat} (hb : b ≤ bytes.length) :
    (slice bytes a b).length = b - a := by
  simp only [slice, List.length_drop, List.length_take]
  omega

section Edits

variable {bytes : List UInt8} {done : Nat} {e : TextEdit} {es : List TextEdit}

/-- The first edit lies behind what is done, and the others behind it. -/
theorem inOrder_cons {length : Nat} :
    InOrder length done ((e :: es).map TextEdit.replacement) ↔
      done ≤ e.start ∧ e.start ≤ e.stop ∧ InOrder length e.stop (es.map TextEdit.replacement) :=
  Iff.rfl

/-- What the first edit contributes to the new text. -/
theorem substitute_cons :
    substitute bytes done ((e :: es).map TextEdit.replacement) =
      slice bytes done e.start ++ Text.bytes e.newText ++
        substitute bytes e.stop (es.map TextEdit.replacement) := rfl

/-- What is kept in front of the first edit. -/
theorem kept_cons :
    kept bytes done ((e :: es).map TextEdit.span) =
      slice bytes done e.start :: kept bytes e.stop (es.map TextEdit.span) := rfl

/-- A substitution keeps the parts around the spans and puts the new texts between them. -/
theorem substitute_eq_weave :
    substitute bytes done (es.map TextEdit.replacement) =
      weave (kept bytes done (es.map TextEdit.span)) (es.map fun e => Text.bytes e.newText) := by
  induction es generalizing done with
  | nil => simp [substitute, kept, weave]
  | cons e es ih => rw [substitute_cons, kept_cons, List.map_cons, weave, ih]

/-- With the replaced parts between them, the kept parts are the old text. -/
theorem weave_kept (h : InOrder bytes.length done (es.map TextEdit.replacement)) :
    weave (kept bytes done (es.map TextEdit.span))
      (es.map fun e => slice bytes e.start e.stop) = bytes.drop done := by
  induction es generalizing done with
  | nil => simp [kept, weave]
  | cons e es ih =>
    obtain ⟨hdone, hspan, hrest⟩ := inOrder_cons.mp h
    -- The part in front of the span and the span itself lead up to where the rest starts.
    rw [kept_cons, List.map_cons, weave, ih hrest, List.append_assoc,
      slice_append_drop bytes hspan, slice_append_drop bytes hdone]

/-- A new text stands behind what is kept of the bytes in front of its span and behind the new
    texts of the edits before it. -/
theorem exists_place {before after : List TextEdit}
    (h : InOrder bytes.length done ((before ++ e :: after).map TextEdit.replacement)) :
    ∃ front, substitute bytes done ((before ++ e :: after).map TextEdit.replacement) =
        front ++ Text.bytes e.newText ++
          substitute bytes e.stop (after.map TextEdit.replacement) ∧
      front.length + done + total width before = e.start + total newLength before := by
  induction before generalizing done with
  | nil =>
    obtain ⟨hdone, hspan, hrest⟩ := inOrder_cons.mp h
    have hlen : (slice bytes done e.start).length = e.start - done := by
      apply length_slice
      have := hrest.le
      omega
    refine ⟨slice bytes done e.start, rfl, ?_⟩
    simp only [total]
    omega
  | cons b before ih =>
    obtain ⟨hdone, hspan, hrest⟩ := inOrder_cons.mp h
    have hlen : (slice bytes done b.start).length = b.start - done := by
      apply length_slice
      have := hrest.le
      omega
    -- The text in front grows by the part that is kept before `b` and by the new text of `b`.
    obtain ⟨front, heq, hplace⟩ := ih hrest
    refine ⟨slice bytes done b.start ++ Text.bytes b.newText ++ front, ?_, ?_⟩
    · rw [List.cons_append, substitute_cons, heq]
      simp only [List.append_assoc]
    · simp only [List.length_append, hlen, total, width, newLength] at hplace ⊢
      omega

end Edits

/-- Every splice that is not refused is a simultaneous substitution. Take the edits in the order in
    which they stand in the text, which is the reverse of the one in which they are carried out.
    Then the new text is the kept parts of the old one with the new texts between them, as the old
    text is the kept parts with the replaced ones between them. Each new text stands at the start
    of its span, moved by what the edits before it have added and taken away. -/
theorem apply_eq_weave {path : Path} {text out : String} {edits : List TextEdit}
    (h : apply path text edits = .ok out) :
    let es := (TextEdit.sortTailFirst edits).reverse
    let parts := kept (Text.bytes text) 0 (es.map TextEdit.span)
    Text.bytes out = weave parts (es.map fun e => Text.bytes e.newText) ∧
      Text.bytes text = weave parts (es.map fun e => slice (Text.bytes text) e.start e.stop) ∧
      ∀ before e after, es = before ++ e :: after → ∃ front back,
        Text.bytes out = front ++ Text.bytes e.newText ++ back ∧
        front.length + total width before = e.start + total newLength before := by
  intro es parts
  obtain ⟨horder, hbytes⟩ := apply_ok h
  -- The replacements are those of the edits from head to tail.
  change InOrder _ 0 (es.map TextEdit.replacement) at horder
  change _ = substitute _ 0 (es.map TextEdit.replacement) at hbytes
  refine ⟨?_, ?_, ?_⟩
  · rw [hbytes, substitute_eq_weave]
  · exact (weave_kept horder).symm
  · intro before e after hsplit
    rw [hsplit] at horder hbytes
    obtain ⟨front, heq, hplace⟩ := exists_place horder
    exact ⟨front, _, hbytes.trans heq, hplace⟩

/-- Edits of one text of which some touch: an insertion in front of a replacement, and another one
    between it and a deletion. -/
def touchingEdits : List TextEdit :=
  [⟨⟨"a.gml"⟩, 0, 0, "// "⟩, ⟨⟨"a.gml"⟩, 4, 6, ""⟩, ⟨⟨"a.gml"⟩, 0, 4, "é"⟩, ⟨⟨"a.gml"⟩, 4, 4, "!"⟩]

/-- Edits that touch are no overlap: the two insertions and the deletion are carried out with the
    replacement. -/
theorem apply_eq_weave_touching :
    apply ⟨"a.gml"⟩ "föo();" touchingEdits = .ok "// é!;" ∧
      (Text.bytes "// é!;" = weave [[], [], [], [], Text.bytes ";"]
        [Text.bytes "// ", Text.bytes "é", Text.bytes "!", []]) ∧
      ∃ front back, Text.bytes "// é!;" = front ++ Text.bytes "!" ++ back ∧ front.length = 5 := by
  let sorted : List TextEdit :=
    [⟨⟨"a.gml"⟩, 4, 6, ""⟩, ⟨⟨"a.gml"⟩, 4, 4, "!"⟩, ⟨⟨"a.gml"⟩, 0, 4, "é"⟩,
      ⟨⟨"a.gml"⟩, 0, 0, "// "⟩]
  have hperm := (TextEdit.sortTailFirst_perm touchingEdits).trans
    (show touchingEdits.Perm sorted by decide)
  -- No two of the edits have one span, so they are sorted in one way only.
  have hunique : ∀ a ∈ sorted, ∀ b ∈ sorted,
      a.tailFirst b = true → b.tailFirst a = true → a = b := by decide
  have hsort : TextEdit.sortTailFirst touchingEdits = sorted :=
    hperm.eq_of_pairwise (fun a b ha hb => hunique a (hperm.mem_iff.mp ha) b hb)
      (TextEdit.sortTailFirst_pairwise _) (by decide)
  have h : apply ⟨"a.gml"⟩ "föo();" touchingEdits = .ok "// é!;" := by
    rw [apply, applyChars, hsort]
    rfl
  obtain ⟨hnew, -, hplace⟩ := apply_eq_weave h
  rw [hsort] at hnew hplace
  obtain ⟨front, back, heq, hlen⟩ := hplace
    [⟨⟨"a.gml"⟩, 0, 0, "// "⟩, ⟨⟨"a.gml"⟩, 0, 4, "é"⟩] ⟨⟨"a.gml"⟩, 4, 4, "!"⟩
    [⟨⟨"a.gml"⟩, 4, 6, ""⟩] rfl
  refine ⟨h, hnew, front, back, heq, ?_⟩
  change front.length + 4 = 4 + 5 at hlen
  omega

end HotRename.Splice
