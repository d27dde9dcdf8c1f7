import HotRename.Json.Printer
import HotRename.Json.Reader

/-!
# Reading undoes writing

A value that is written on one line is read back, whatever follows it. The readers return how much
shorter the rest of a text is; `bare` leaves this out. Main statements:

* `literal_escape`  a string literal is read back
* `number_toDigits` a natural number is read back
* `value_compact`   a value is read back
* `parse_compact`   so is a text that is one value
-/

namespace HotRename.Json
namespace Reader

/-- What is read off a text and what is left of it, without the bound on its length. -/
def bare {cs : List Char} (x : Option (α × Rest cs)) : Option (α × List Char) :=
  x.map fun r => (r.1, r.2.1)

/-- What is read without the bound was read with it. -/
theorem bare_eq_some {cs rest : List Char} {x : Option (α × Rest cs)} {a : α}
    (h : bare x = some (a, rest)) : ∃ hlt, x = some (a, ⟨rest, hlt⟩) := by
  obtain ⟨⟨b, r, hlt⟩, hx, hpair⟩ := Option.map_eq_some_iff.mp h
  cases hpair
  exact ⟨hlt, hx⟩

/-! ## Tokens -/

/-- In front of another character there are no blanks to skip. -/
theorem skipSpace_cons {c : Char} (hc : isSpace c = false) (cs : List Char) :
    (skipSpace (c :: cs)).1 = c :: cs := by
  simp [skipSpace, hc]

/-- The text behind a character that stands at its front. -/
theorem symbol_cons (wanted : Char) {c : Char} (hc : isSpace c = false) (cs : List Char) :
    (symbol wanted (c :: cs)).map Subtype.val = if c = wanted then some cs else none := by
  unfold symbol
  split
  · rename_i d rest hrest
    rw [skipSpace_cons hc] at hrest
    obtain ⟨rfl, rfl⟩ := List.cons.inj hrest
    split <;> rfl
  · rename_i hrest
    rw [skipSpace_cons hc] at hrest
    exact nomatch hrest

/-- A character that is wanted and stands at the front is taken off. -/
theorem symbol_self {c : Char} (hc : isSpace c = false) (cs : List Char) :
    ∃ hlt, symbol c (c :: cs) = some ⟨cs, hlt⟩ := by
  have h := symbol_cons c hc cs
  rw [if_pos rfl] at h
  obtain ⟨⟨r, hlt⟩, hr, hrest⟩ := Option.map_eq_some_iff.mp h
  change r = cs at hrest
  subst hrest
  exact ⟨hlt, hr⟩

/-- Another character in its place is refused. -/
theorem symbol_ne {wanted c : Char} (hne : c ≠ wanted) (hc : isSpace c = false)
    (cs : List Char) : symbol wanted (c :: cs) = none := by
  have h := symbol_cons wanted hc cs
  rw [if_neg hne] at h
  exact Option.map_eq_none_iff.mp h

/-- The first character of a text decides how it is read. -/
theorem value_cons (depth : Nat) {c : Char} (hc : isSpace c = false) (cs : List Char) :
    bare (value depth (c :: cs)) =
      if c = 'n' then (expect ['u', 'l', 'l'] cs).map fun r => (.null, r.1)
      else if c = 't' then (expect ['r', 'u', 'e'] cs).map fun r => (.bool true, r.1)
      else if c = 'f' then (expect ['a', 'l', 's', 'e'] cs).map fun r => (.bool false, r.1)
      else if c = '"' then (bare (literal cs)).map fun x => (literalValue x.1, x.2)
      else if c = '[' then
        match (symbol ']' cs).map Subtype.val with
        | some r => some (within depth (.array []), r)
        | none => (bare (items (depth - 1) cs)).map fun x => (within depth (.array x.1), x.2)
      else if c = '\x7b' then
        match (symbol '\x7d' cs).map Subtype.val with
        | some r => some (within depth (.object []), r)
        | none => (bare (members (depth - 1) cs)).map fun x => (within depth (.object x.1), x.2)
      else bare (number (c :: cs)) := by
  rw [value]
  split
  · rename_i hrest
    rw [skipSpace_cons hc] at hrest
    cases hrest
  · rename_i d rest hrest
    rw [skipSpace_cons hc] at hrest
    obtain ⟨rfl, rfl⟩ := List.cons.inj hrest
    -- The cases are those of the reader, in its order; each only loses its bound.
    dsimp only
    split
    · simp [bare, Function.comp_def]
    split
    · simp [bare, Function.comp_def]
    split
    · simp [bare, Function.comp_def]
    split
    · simp [bare, Function.comp_def]
    split
    · cases symbol ']' cs <;> simp [bare, Function.comp_def]
    split
    · cases symbol '\x7d' cs <;> simp [bare, Function.comp_def]
    · rw [bare, Option.map_map]
      rfl

/-! ## Items and members -/

/-- A value and a closing bracket are the end of an array. -/
theorem items_last {depth : Nat} {cs rest : List Char} {j : Json}
    (h : bare (value depth cs) = some (j, ']' :: rest)) :
    bare (items depth cs) = some ([j], rest) := by
  obtain ⟨hlt, hvalue⟩ := bare_eq_some h
  obtain ⟨hend, hsymbol⟩ := symbol_self (c := ']') (by decide) rest
  rw [items, hvalue]
  simp [hsymbol, bare]

/-- A value and a comma are followed by the other items. -/
theorem items_more {depth : Nat} {cs rest : List Char} {j : Json}
    (h : bare (value depth cs) = some (j, ',' :: rest)) :
    bare (items depth cs) = (bare (items depth rest)).map fun x => (j :: x.1, x.2) := by
  obtain ⟨hlt, hvalue⟩ := bare_eq_some h
  obtain ⟨hcomma, hsymbol⟩ := symbol_self (c := ',') (by decide) rest
  rw [items, hvalue]
  simp [hsymbol, symbol_ne (show ',' ≠ ']' by decide) (by decide), bare,
    Function.comp_def]

/-- A name, a value and a closing brace are the end of an object. -/
theorem members_last {depth : Nat} {cs after rest : List Char} {key : Option String} {j : Json}
    (hkey : bare (literal cs) = some (key, ':' :: after))
    (h : bare (value depth after) = some (j, '\x7d' :: rest)) :
    bare (members depth ('"' :: cs)) = some ([(key, j)], rest) := by
  obtain ⟨hquote, hopen⟩ := symbol_self (c := '"') (by decide) cs
  obtain ⟨hlit, hliteral⟩ := bare_eq_some hkey
  obtain ⟨hcolon, hsymbol⟩ := symbol_self (c := ':') (by decide) after
  obtain ⟨hlt, hvalue⟩ := bare_eq_some h
  obtain ⟨hend, hclose⟩ := symbol_self (c := '\x7d') (by decide) rest
  rw [members]
  simp [hopen, hliteral, hsymbol, hvalue, hclose, bare]

/-- A name, a value and a comma are followed by the other members. -/
theorem members_more {depth : Nat} {cs after rest : List Char} {key : Option String} {j : Json}
    (hkey : bare (literal cs) = some (key, ':' :: after))
    (h : bare (value depth after) = some (j, ',' :: rest)) :
    bare (members depth ('"' :: cs)) =
      (bare (members depth rest)).map fun x => ((key, j) :: x.1, x.2) := by
  obtain ⟨hquote, hopen⟩ := symbol_self (c := '"') (by decide) cs
  obtain ⟨hlit, hliteral⟩ := bare_eq_some hkey
  obtain ⟨hcolon, hsymbol⟩ := symbol_self (c := ':') (by decide) after
  obtain ⟨hlt, hvalue⟩ := bare_eq_some h
  obtain ⟨hcomma, hnext⟩ := symbol_self (c := ',') (by decide) rest
  rw [members]
  simp [hopen, hliteral, hsymbol, hvalue, hnext,
    symbol_ne (show ',' ≠ '\x7d' by decide) (by decide), bare, Function.comp_def]

/-! ## Strings -/

/-- The two digits of a control character are read as its code. -/
theorem hexUnit_control : ∀ n, n < 0x20 →
    hexUnit '0' '0' (hexDigit (n / 16)) (hexDigit (n % 16)) = some n := by
  decide

/-- A character is written as a short escape, as a code unit, or as itself. -/
theorem escapeChar_cases (c : Char) :
    (∃ e, e ≠ 'u' ∧ shortEscape e = some c ∧ escapeChar c = ['\\', e]) ∨
    (c.toNat < 0x20 ∧ escapeChar c =
      ['\\', 'u', '0', '0', hexDigit (c.toNat / 16), hexDigit (c.toNat % 16)]) ∨
    (¬ c.toNat < 0x20 ∧ c ≠ '"' ∧ c ≠ '\\' ∧ escapeChar c = [c]) := by
  have hcode {n : Nat} (h : c.toNat = n) : Char.ofNat n = c := by rw [← h, Char.ofNat_toNat]
  -- Seven characters have a short escape, in the order of the writer.
  unfold escapeChar
  split
  · rename_i hc
    exact .inl ⟨'"', by decide, by rw [hc]; rfl, rfl⟩
  split
  · rename_i hc
    exact .inl ⟨'\\', by decide, by rw [hc]; rfl, rfl⟩
  split
  · rename_i hc
    exact .inl ⟨'n', by decide, by rw [hc]; rfl, rfl⟩
  split
  · rename_i hc
    exact .inl ⟨'r', by decide, by rw [hc]; rfl, rfl⟩
  split
  · rename_i hc
    exact .inl ⟨'t', by decide, by rw [hc]; rfl, rfl⟩
  split
  · rename_i hc
    exact .inl ⟨'b', by decide, by rw [← hcode hc]; rfl, rfl⟩
  split
  · rename_i hc
    exact .inl ⟨'f', by decide, by rw [← hcode hc]; rfl, rfl⟩
  split
  · rename_i hc
    exact .inr (.inl ⟨hc, rfl⟩)
  · rename_i hquote hbackslash _ _ _ _ _ hc
    exact .inr (.inr ⟨hc, hquote, hbackslash, rfl⟩)

/-- A written character is read as one element of a literal, which stands for it. -/
theorem literalUnits_escapeChar (c : Char) :
    ∃ u : Unit16, (∀ us, unitsText (u :: us) = (unitsText us).map (c :: ·)) ∧
      ∀ cs, bare (literalUnits (escapeChar c ++ cs)) =
        (bare (literalUnits cs)).map fun x => (u :: x.1, x.2) := by
  rcases escapeChar_cases c with ⟨e, hu, he, hc⟩ | ⟨hlow, hc⟩ | ⟨hlow, hquote, hbackslash, hc⟩
  -- A short escape is not the escape of a code unit.
  · refine ⟨.plain c, fun _ => rfl, fun cs => ?_⟩
    rw [hc, List.cons_append, List.cons_append, List.nil_append, literalUnits]
    · simp only [he]
      cases literalUnits cs <;> rfl
    · rintro a b c d cs rfl
      exact absurd rfl hu
  · refine ⟨.unit c.toNat, fun us => ?_, fun cs => ?_⟩
    -- A control character is no half of a pair, so it stands for itself whatever follows.
    · have hscalar : c.toNat < 0xD800 := by omega
      rcases us with _ | ⟨_ | _, us⟩ <;> simp [unitsText, hscalar, Char.ofNat_toNat]
    · rw [hc]
      simp only [List.cons_append, List.nil_append, literalUnits, hexUnit_control c.toNat hlow]
      cases literalUnits cs <;> rfl
  · refine ⟨.plain c, fun _ => rfl, fun cs => ?_⟩
    rw [hc, List.singleton_append, literalUnits]
    · simp only [hlow, hbackslash, false_or, if_false]
      cases literalUnits cs <;> rfl
    · exact hquote
    · exact fun _ _ _ _ _ h _ => hbackslash h
    · exact fun _ _ h _ => hbackslash h

/-- A string literal is read back. -/
theorem literal_escape (s : String) (rest : List Char) :
    bare (literal (s.toList.flatMap escapeChar ++ '"' :: rest)) = some (some s, rest) := by
  -- The induction is on the characters, each of which is one element.
  have hunits (cs : List Char) : ∃ units, unitsText units = some cs ∧
      bare (literalUnits (cs.flatMap escapeChar ++ '"' :: rest)) = some (units, rest) := by
    induction cs with
    | nil =>
      refine ⟨[], rfl, ?_⟩
      rw [List.flatMap_nil, List.nil_append, literalUnits]
      rfl
    | cons c cs ih =>
      obtain ⟨units, htext, hread⟩ := ih
      obtain ⟨u, hu, hfirst⟩ := literalUnits_escapeChar c
      refine ⟨u :: units, by rw [hu, htext]; rfl, ?_⟩
      rw [List.flatMap_cons, List.append_assoc, hfirst, hread]
      rfl
  obtain ⟨units, htext, hread⟩ := hunits s.toList
  obtain ⟨hlt, hunits⟩ := bare_eq_some hread
  simp [literal, hunits, htext, bare]

/-! ## Numbers -/

/-- A number in front of the text ends there. -/
def endsNumber (cs : List Char) : Bool :=
  cs.head?.all fun c => !c.isDigit && c ≠ '.' && c ≠ 'e' && c ≠ 'E'

/-- A digit is not a character that is no digit. -/
theorem ne_of_isDigit {c d : Char} (hc : c.isDigit = true) (hd : d.isDigit = false) : c ≠ d := by
  rintro rfl
  rw [hc] at hd
  exact nomatch hd

/-- A written number starts with a digit. -/
theorem toDigits_eq_cons (n : Nat) :
    ∃ c cs, Nat.toDigits 10 n = c :: cs ∧ c.isDigit = true := by
  cases hds : Nat.toDigits 10 n with
  | nil => exact absurd hds Nat.toDigits_ne_nil
  | cons c cs =>
    exact ⟨c, cs, rfl, @Nat.isDigit_of_mem_toDigits 10 n c (by decide) (by decide) (by simp [hds])⟩

/-- More digits make no smaller number. -/
theorem le_ofDigitChars (ds : List Char) (n : Nat) : n ≤ Nat.ofDigitChars 10 ds n := by
  induction ds generalizing n with
  | nil => exact Nat.le_refl n
  | cons d ds ih =>
    rw [Nat.ofDigitChars_cons]
    have := ih (10 * n + (d.toNat - '0'.toNat))
    omega

/-- Digits that fit a word are taken over one by one. -/
theorem foldl_takeWhole {ds : List Char} {n : Nat}
    (h : Nat.ofDigitChars 10 ds n < Numeral.wordSize) :
    ds.foldl Numeral.Scaled.takeWhole { significand := n, exponent := 0, full := false } =
      { significand := Nat.ofDigitChars 10 ds n, exponent := 0, full := false } := by
  induction ds generalizing n with
  | nil => rfl
  | cons d ds ih =>
    rw [Nat.ofDigitChars_cons] at h ⊢
    -- What the digits up to here make is no more than the whole, and so fits.
    have hle := le_ofDigitChars ds (10 * n + (d.toNat - '0'.toNat))
    have hfits : 10 * n + Numeral.digitValue d < Numeral.wordSize := Nat.lt_of_le_of_lt hle h
    rw [List.foldl_cons, Numeral.Scaled.takeWhole]
    simp only [hfits, Bool.not_false, decide_true, Bool.true_and, if_true]
    exact ih h

/-- A number that is not zero is not written with a leading zero. -/
theorem head?_toDigits {n : Nat} (h : (Nat.toDigits 10 n).head? = some '0') : n = 0 := by
  induction n using Nat.strongRecOn with
  | _ n ih =>
    rw [Nat.toDigits_eq_if (by decide)] at h
    split at h
    · rename_i hlt
      have hzero : ∀ m, m < 10 → [Nat.digitChar m].head? = some '0' → m = 0 := by decide
      exact hzero n hlt h
    -- The first digit is that of the number without its last digit.
    · rename_i hge
      rw [List.head?_append, List.head?_eq_some_head Nat.toDigits_ne_nil, Option.some_or,
        ← List.head?_eq_some_head] at h
      have := ih (n / 10) (by omega) h
      omega

/-- The digits of a number are all read. -/
theorem wholeDigits_toDigits (n : Nat) {rest : List Char} (hrest : endsNumber rest = true) :
    wholeDigits (Nat.toDigits 10 n ++ rest) = some (Nat.toDigits 10 n) := by
  have hdigits : digits (Nat.toDigits 10 n ++ rest) = Nat.toDigits 10 n := by
    rw [digits, List.takeWhile_append_of_pos fun c hc =>
      Nat.isDigit_of_mem_toDigits (by decide) (by decide) hc]
    cases rest with
    | nil => simp
    | cons c rest => simp_all [endsNumber]
  have hnext : rest.head?.any Char.isDigit = false := by
    cases rest <;> simp_all [endsNumber]
  unfold wholeDigits
  split
  · -- A leading zero is the number itself.
    rename_i cs hcs
    have hhead : (Nat.toDigits 10 n).head? = some '0' := by
      have h := congrArg List.head? hcs
      rwa [List.head?_append, List.head?_eq_some_head Nat.toDigits_ne_nil, Option.some_or,
        ← List.head?_eq_some_head] at h
    obtain rfl := head?_toDigits hhead
    obtain ⟨-, rfl⟩ := List.cons.inj (show '0' :: rest = '0' :: cs from hcs)
    rw [hnext]
    rfl
  · rw [hdigits, if_neg]
    simp [Nat.toDigits_ne_nil]

/-- A written number has no sign, no fraction and no exponent. -/
theorem numeral_toDigits (n : Nat) {rest : List Char} (hrest : endsNumber rest = true) :
    numeral (Nat.toDigits 10 n ++ rest) =
      some { sign := [], whole := Nat.toDigits 10 n, fraction := [], exponent := [] } := by
  have hsign : (Nat.toDigits 10 n).head? ≠ some '-' := by
    obtain ⟨c, cs, hcs, hc⟩ := toDigits_eq_cons n
    rw [hcs, List.head?_cons]
    exact fun h => ne_of_isDigit hc (by decide) (Option.some.inj h)
  -- What follows a number starts neither a fraction nor an exponent.
  have hfraction : fraction rest = some [] := by
    unfold fraction
    split
    · simp [endsNumber] at hrest
    · rfl
  have hexponent : exponent rest = some [] := by
    unfold exponent
    split <;> simp_all [endsNumber]
  simp [numeral, hsign, wholeDigits_toDigits n hrest, hfraction, hexponent]

/-- A natural number of 64 bits is read back. -/
theorem number_toDigits {n : Nat} (hn : n < Numeral.wordSize) {rest : List Char}
    (hrest : endsNumber rest = true) :
    bare (number (Nat.toDigits 10 n ++ rest)) = some (.number (.natural n), rest) := by
  have hwhole := @foldl_takeWhole (Nat.toDigits 10 n) 0
  rw [Nat.ofDigitChars_toDigits (by decide) (by decide)] at hwhole
  -- A number that fits is kept as it is, and not as a decimal fraction.
  have hvalue : Numeral.value
      { sign := [], whole := Nat.toDigits 10 n, fraction := [], exponent := [] } =
        .number (.natural n) := by
    simp [Numeral.value, Numeral.number?, Numeral.fitsWord, Numeral.wholePart, hwhole hn]
  obtain ⟨d, ds, hds, -⟩ := toDigits_eq_cons n
  have hnumeral := numeral_toDigits n hrest
  rw [hds] at hnumeral hvalue ⊢
  unfold number
  rw [List.cons_append] at hnumeral ⊢
  simp [hnumeral, hvalue, bare, Numeral.chars]

end Reader

/-! ## Values -/

mutual

/-- The value has no number but natural ones of 64 bits, and no part that stands for nothing. -/
def isWritable : Json → Bool
  | .null | .bool _ | .string _ => true
  | .number (.natural n) => n < Numeral.wordSize
  | .number _ | .void => false
  | .array items => areWritable items
  | .object members => haveWritable members

/-- The items of an array are such values. -/
def areWritable : List Json → Bool
  | [] => true
  | j :: js => isWritable j && areWritable js

/-- The members of an object are such values, and have names. -/
def haveWritable : List (Option String × Json) → Bool
  | [] => true
  | (key, j) :: ms => key.isSome && isWritable j && haveWritable ms

end

/-- A natural number is written with its digits. -/
theorem compact_natural (n : Nat) : (compact (.number (.natural n))).toList = Nat.toDigits 10 n :=
  Nat.toList_repr

/-- A string is written between quotes, character by character. -/
theorem compact_string (s : String) (rest : List Char) :
    (compact (.string s)).toList ++ rest = '"' :: (s.toList.flatMap escapeChar ++ '"' :: rest) := by
  simp [compact, quote]

/-- An array is written between brackets. -/
theorem compact_array (items : List Json) (rest : List Char) :
    (compact (.array items)).toList ++ rest =
      '[' :: ((",".intercalate (compactItems items)).toList ++ ']' :: rest) := by
  simp [compact]

/-- An object is written between braces. -/
theorem compact_object (members : List (Option String × Json)) (rest : List Char) :
    (compact (.object members)).toList ++ rest =
      '\x7b' :: ((",".intercalate (compactMembers members)).toList ++ '\x7d' :: rest) := by
  simp [compact]

/-- A member is written as its name, a colon and its value. -/
theorem compact_member (key : String) (j : Json) (rest : List Char) :
    (nameText (some key) ++ ":" ++ compact j).toList ++ rest =
      '"' :: (key.toList.flatMap escapeChar ++ '"' :: ':' :: ((compact j).toList ++ rest)) := by
  simp [nameText, quote]

/-- Parts that a comma divides start with the first of them. -/
theorem intercalate_eq_append (s : String) (ss : List String) :
    ∃ cs, (",".intercalate (s :: ss)).toList = s.toList ++ cs := by
  cases ss with
  | nil => exact ⟨[], (List.append_nil _).symm⟩
  | cons t ts =>
    rw [String.intercalate_cons_cons, String.toList_append, String.toList_append,
      List.append_assoc]
    exact ⟨_, rfl⟩

/-- Behind the first of several parts stands a comma. -/
theorem intercalate_cons_cons_append (s t : String) (ss : List String) (rest : List Char) :
    (",".intercalate (s :: t :: ss)).toList ++ rest =
      s.toList ++ ',' :: ((",".intercalate (t :: ss)).toList ++ rest) := by
  rw [String.intercalate_cons_cons]
  simp

namespace Reader

/-- A digit is no blank. -/
theorem isSpace_of_isDigit {c : Char} (hc : c.isDigit = true) : isSpace c = false := by
  have hblank (d : Char) (hd : d.isDigit = false) : c ≠ d := ne_of_isDigit hc hd
  simp [isSpace, hblank ' ' (by decide), hblank '\t' (by decide), hblank '\n' (by decide),
    hblank '\r' (by decide)]

/-- A written value starts neither with a blank nor as the end of an array. -/
theorem compact_eq_cons {j : Json} (hj : j.isWritable = true) :
    ∃ c cs, (compact j).toList = c :: cs ∧ isSpace c = false ∧ c ≠ ']' := by
  -- The first character tells the kind of a value. A bracket that closes is none of them.
  match j, hj with
  | .null, _ => exact ⟨'n', _, rfl, by decide, by decide⟩
  | .bool true, _ => exact ⟨'t', _, rfl, by decide, by decide⟩
  | .bool false, _ => exact ⟨'f', _, rfl, by decide, by decide⟩
  | .number (.natural n), _ =>
    obtain ⟨c, cs, hcs, hc⟩ := toDigits_eq_cons n
    exact ⟨c, cs, (compact_natural n).trans hcs, isSpace_of_isDigit hc,
      ne_of_isDigit hc (by decide)⟩
  | .string s, _ =>
    have h := compact_string s []
    rw [List.append_nil] at h
    exact ⟨'"', _, h, by decide, by decide⟩
  | .array items, _ =>
    have h := compact_array items []
    rw [List.append_nil] at h
    exact ⟨'[', _, h, by decide, by decide⟩
  | .object members, _ =>
    have h := compact_object members []
    rw [List.append_nil] at h
    exact ⟨'\x7b', _, h, by decide, by decide⟩

/-- A text that starts with a digit is read as a number. -/
theorem value_digit (depth : Nat) {c : Char} (hc : c.isDigit = true) (cs : List Char) :
    bare (value depth (c :: cs)) = bare (number (c :: cs)) := by
  have hne (d : Char) (hd : d.isDigit = false) : c ≠ d := ne_of_isDigit hc hd
  rw [value_cons depth (isSpace_of_isDigit hc), if_neg (hne 'n' (by decide)),
    if_neg (hne 't' (by decide)), if_neg (hne 'f' (by decide)), if_neg (hne '"' (by decide)),
    if_neg (hne '[' (by decide)), if_neg (hne '\x7b' (by decide))]

/-- A container is kept as long as the depth is not used up. -/
theorem within_of_pos {depth : Nat} (h : 0 < depth) (container : Json) :
    within depth container = container :=
  if_neg (Nat.ne_of_gt h)

/-- An array of items that are read back is read back. -/
theorem value_array {depth : Nat} {js : List Json} {c : Char} {cs rest : List Char}
    (hdepth : 0 < depth) (hc : isSpace c = false) (hend : c ≠ ']')
    (hitems : bare (items (depth - 1) (c :: cs)) = some (js, rest)) :
    bare (value depth ('[' :: c :: cs)) = some (.array js, rest) := by
  rw [value_cons depth (by decide)]
  simp [symbol_cons ']' hc, hend, hitems, within_of_pos hdepth]

/-- So is an object of members that are. -/
theorem value_object {depth : Nat} {ms : List (Option String × Json)} {cs rest : List Char}
    (hdepth : 0 < depth)
    (hmembers : bare (members (depth - 1) ('"' :: cs)) = some (ms, rest)) :
    bare (value depth ('\x7b' :: '"' :: cs)) = some (.object ms, rest) := by
  rw [value_cons depth (by decide)]
  simp [symbol_cons '\x7d' (show isSpace '"' = false by decide), hmembers, within_of_pos hdepth]

-- The three statements follow the three readers, and the recursion is that of the writer.
mutual

/-- A value that is written on one line is read back. -/
theorem value_compact : ∀ (j : Json) (depth : Nat) (rest : List Char), j.isWritable = true →
    j.depth ≤ depth → endsNumber rest = true →
    bare (value depth ((compact j).toList ++ rest)) = some (j, rest)
  | .null, depth, rest, _, _, _ => by
    rw [show (compact .null).toList ++ rest = 'n' :: 'u' :: 'l' :: 'l' :: rest from rfl,
      value_cons depth (by decide)]
    simp [expect]
  | .bool true, depth, rest, _, _, _ => by
    rw [show (compact (.bool true)).toList ++ rest = 't' :: 'r' :: 'u' :: 'e' :: rest from rfl,
      value_cons depth (by decide)]
    simp [expect]
  | .bool false, depth, rest, _, _, _ => by
    rw [show (compact (.bool false)).toList ++ rest = 'f' :: 'a' :: 'l' :: 's' :: 'e' :: rest
      from rfl, value_cons depth (by decide)]
    simp [expect]
  | .number (.natural n), depth, rest, hj, _, hrest => by
    obtain ⟨c, cs, hcs, hc⟩ := toDigits_eq_cons n
    have hnumber := number_toDigits (of_decide_eq_true hj) hrest
    rw [compact_natural]
    rw [hcs, List.cons_append] at hnumber ⊢
    rw [value_digit depth hc, hnumber]
  | .string s, depth, rest, _, _, _ => by
    rw [compact_string, value_cons depth (by decide), literal_escape]
    simp [literalValue]
  | .array [], depth, rest, _, hd, _ => by
    rw [show (compact (.array [])).toList ++ rest = '[' :: ']' :: rest from rfl,
      value_cons depth (by decide), symbol_cons ']' (by decide)]
    simp [within_of_pos hd]
  | .array (j :: js), depth, rest, hj, hd, _ => by
    have hdepth : depthItems (j :: js) + 1 ≤ depth := hd
    have hitems := items_compact (j :: js) (depth - 1) rest (by simp) hj (by omega)
    -- The array is not read as an empty one, since its first item does not start with a bracket.
    obtain ⟨c, cs, hcs, hc, hend⟩ := compact_eq_cons (Bool.and_eq_true_iff.mp hj).1
    obtain ⟨cs', hcs'⟩ := intercalate_eq_append (compact j) (compactItems js)
    rw [compactItems, hcs', hcs] at hitems
    rw [compact_array, compactItems, hcs', hcs]
    exact value_array (by omega) hc hend hitems
  | .object [], depth, rest, _, hd, _ => by
    rw [show (compact (.object [])).toList ++ rest = '\x7b' :: '\x7d' :: rest from rfl,
      value_cons depth (by decide), symbol_cons '\x7d' (by decide)]
    simp [within_of_pos hd]
  | .object ((some key, j) :: ms), depth, rest, hj, hd, _ => by
    have hdepth : depthMembers ((some key, j) :: ms) + 1 ≤ depth := hd
    have hmembers := members_compact ((some key, j) :: ms) (depth - 1) rest (by simp) hj (by omega)
    obtain ⟨cs, hcs⟩ := intercalate_eq_append (nameText (some key) ++ ":" ++ compact j)
      (compactMembers ms)
    rw [compactMembers, hcs, List.append_assoc, compact_member] at hmembers
    rw [compact_object, compactMembers, hcs, List.append_assoc, compact_member]
    exact value_object (by omega) hmembers

/-- So are the items of an array, up to the bracket that closes it. -/
theorem items_compact : ∀ (js : List Json) (depth : Nat) (rest : List Char), js ≠ [] →
    areWritable js = true → depthItems js ≤ depth →
    bare (items depth ((",".intercalate (compactItems js)).toList ++ ']' :: rest)) =
      some (js, rest)
  | [], _, _, hne, _, _ => absurd rfl hne
  | [j], depth, rest, _, hjs, hd => by
    have hdepth : max j.depth 0 ≤ depth := hd
    exact items_last (value_compact j depth (']' :: rest) (Bool.and_eq_true_iff.mp hjs).1
      (by omega) rfl)
  | j :: j' :: js, depth, rest, _, hjs, hd => by
    obtain ⟨hj, hjs⟩ := Bool.and_eq_true_iff.mp hjs
    have hdepth : max j.depth (depthItems (j' :: js)) ≤ depth := hd
    have hitems := items_compact (j' :: js) depth rest (by simp) hjs (by omega)
    -- The comma ends the first item, also where that is a number.
    have hvalue := value_compact j depth
      (',' :: ((",".intercalate (compactItems (j' :: js))).toList ++ ']' :: rest)) hj (by omega) rfl
    rw [compactItems, compactItems, intercalate_cons_cons_append, ← compactItems,
      items_more hvalue, hitems]
    rfl

/-- So are the members of an object, up to the brace that closes it. -/
theorem members_compact : ∀ (ms : List (Option String × Json)) (depth : Nat) (rest : List Char),
    ms ≠ [] → haveWritable ms = true → depthMembers ms ≤ depth →
    bare (members depth ((",".intercalate (compactMembers ms)).toList ++ '\x7d' :: rest)) =
      some (ms, rest)
  | [], _, _, hne, _, _ => absurd rfl hne
  | [(some key, j)], depth, rest, _, hms, hd => by
    have hdepth : max j.depth 0 ≤ depth := hd
    have hvalue := value_compact j depth ('\x7d' :: rest) (Bool.and_eq_true_iff.mp hms).1
      (by omega) rfl
    have hkey := literal_escape key (':' :: ((compact j).toList ++ '\x7d' :: rest))
    rw [compactMembers, compactMembers, String.intercalate_singleton, compact_member]
    exact members_last hkey hvalue
  | (some key, j) :: m :: ms, depth, rest, _, hms, hd => by
    obtain ⟨hj, hms⟩ := Bool.and_eq_true_iff.mp hms
    have hdepth : max j.depth (depthMembers (m :: ms)) ≤ depth := hd
    have hmembers := members_compact (m :: ms) depth rest (by simp) hms (by omega)
    -- As in an array, the comma ends the value of the first member.
    have hvalue := value_compact j depth
      (',' :: ((",".intercalate (compactMembers (m :: ms))).toList ++ '\x7d' :: rest)) hj
      (by omega) rfl
    have hkey := literal_escape key (':' :: ((compact j).toList ++
      ',' :: ((",".intercalate (compactMembers (m :: ms))).toList ++ '\x7d' :: rest)))
    rw [compactMembers, compactMembers, intercalate_cons_cons_append, compact_member,
      ← compactMembers, members_more hkey hvalue, hmembers]
    rfl

end

end Reader

/-- A text that is read to its end is parsed. -/
theorem parseWithin_of_value {depth : Nat} {s : String} {j : Json}
    (h : Reader.bare (Reader.value depth s.toList) = some (j, [])) :
    parseWithin depth s = some j := by
  obtain ⟨hlt, hread⟩ := Reader.bare_eq_some h
  rw [parseWithin, hread]
  rfl

/-- A text that is one written value is read back. -/
theorem parse_compact {j : Json} (hj : j.isWritable = true) (hd : j.depth ≤ maxDepth) :
    parse (compact j) = some j := by
  have hvalue := Reader.value_compact j maxDepth [] hj hd rfl
  rw [List.append_nil] at hvalue
  exact parseWithin_of_value hvalue

end HotRename.Json
