import HotRename.Json.Numeral

/-!
# Reading JSON

A reader takes a value off the front of a text and returns what is left, which is shorter, so the
readers of nested values call each other on ever shorter texts. The grammar is that of RFC 8259.
The whole text has to be one value with nothing but blanks around it. A container that is nested
deeper than the given depth is read by the same rules, and is void.
-/

namespace HotRename.Json
namespace Reader

/-- What is left of a text after something was read off its front. -/
abbrev Rest (cs : List Char) : Type := { rest : List Char // rest.length < cs.length }

/-- What is left of a text after something was skipped that may be empty. -/
abbrev Tail (cs : List Char) : Type := { rest : List Char // rest.length ≤ cs.length }

/-- The blanks allowed between tokens. -/
def isSpace (c : Char) : Bool :=
  c = ' ' || c = '\t' || c = '\n' || c = '\r'

/-- The text from its first character on that is not a blank. -/
def skipSpace (cs : List Char) : Tail cs :=
  ⟨cs.dropWhile isSpace, (List.dropWhile_sublist _).length_le⟩

/-- The text after the given characters, if it starts with them. -/
def expect : (wanted : List Char) → (cs : List Char) → Option (Tail cs)
  | [], cs => some ⟨cs, Nat.le_refl _⟩
  | _ :: _, [] => none
  | w :: ws, c :: cs =>
    if w = c then (expect ws cs).map fun r => ⟨r.1, Nat.le_succ_of_le r.2⟩ else none

/-! ## Numbers -/

/-- The digits at the front of a text. -/
def digits (cs : List Char) : List Char :=
  cs.takeWhile Char.isDigit

/-- The digits of a whole number: a lone zero, or digits that do not start with one. -/
def wholeDigits (cs : List Char) : Option (List Char) :=
  match cs with
  | '0' :: cs => if cs.head?.any Char.isDigit then none else some ['0']
  | cs => if (digits cs).isEmpty then none else some (digits cs)

/-- The fraction at the front of a text, empty if there is none. -/
def fraction (cs : List Char) : Option (List Char) :=
  match cs with
  | '.' :: cs => if (digits cs).isEmpty then none else some ('.' :: digits cs)
  | _ => some []

/-- The digits of an exponent after its sign. -/
def exponentDigits (lead cs : List Char) : Option (List Char) :=
  if (digits cs).isEmpty then none else some (lead ++ digits cs)

/-- The exponent at the front of a text, empty if there is none. -/
def exponent (cs : List Char) : Option (List Char) :=
  match cs with
  | e :: s :: cs =>
    if e = 'e' ∨ e = 'E' then
      if s = '+' ∨ s = '-' then exponentDigits [e, s] cs else exponentDigits [e] (s :: cs)
    else some []
  | [e] => if e = 'e' ∨ e = 'E' then none else some []
  | [] => some []

/-- The numeral at the front of a text. -/
def numeral (cs : List Char) : Option Numeral := do
  let sign := if cs.head? = some '-' then ['-'] else []
  -- Each part is cut off before the next one is looked for.
  let cs := cs.drop sign.length
  let whole ← wholeDigits cs
  let cs := cs.drop whole.length
  let fraction ← fraction cs
  let exponent ← exponent (cs.drop fraction.length)
  return { sign, whole, fraction, exponent }

/-- The number at the front of a text. -/
def number (cs : List Char) : Option (Json × Rest cs) :=
  match numeral cs, cs with
  -- A numeral has a character at least, so what is left is shorter.
  | some n, _ :: cs =>
    some (n.value,
      ⟨cs.drop (n.chars.length - 1), by simp only [List.length_drop, List.length_cons]; omega⟩)
  | _, _ => none

/-! ## Strings -/

/-- The value of a hexadecimal digit. -/
def hexValue (c : Char) : Option Nat :=
  if c.isDigit then some (c.toNat - '0'.toNat)
  else if 'a' ≤ c ∧ c ≤ 'f' then some (c.toNat - 'a'.toNat + 10)
  else if 'A' ≤ c ∧ c ≤ 'F' then some (c.toNat - 'A'.toNat + 10)
  else none

/-- The code unit of a `\u` escape. -/
def hexUnit (a b c d : Char) : Option Nat := do
  let a ← hexValue a
  let b ← hexValue b
  let c ← hexValue c
  let d ← hexValue d
  return ((a * 16 + b) * 16 + c) * 16 + d

/-- One element of a string literal: a character, or a code unit given by an escape. -/
inductive Unit16 where
  | plain (c : Char)
  | unit (n : Nat)

/-- The character a one-letter escape stands for. -/
def shortEscape (c : Char) : Option Char :=
  if c = '"' ∨ c = '\\' ∨ c = '/' then some c
  else if c = 'b' then some (Char.ofNat 0x08)
  else if c = 'f' then some (Char.ofNat 0x0C)
  else if c = 'n' then some '\n'
  else if c = 'r' then some '\r'
  else if c = 't' then some '\t'
  else none

/-- The elements of a string literal after its opening quote, up to the closing one. -/
def literalUnits : (cs : List Char) → Option (List Unit16 × Rest cs)
  | [] => none
  | '"' :: cs => some ([], ⟨cs, Nat.lt_succ_self _⟩)
  -- A code unit may be half of a pair; the halves are put together later.
  | '\\' :: 'u' :: a :: b :: c :: d :: cs => do
    let n ← hexUnit a b c d
    let (units, rest) ← literalUnits cs
    return (.unit n :: units, ⟨rest.1, by have := rest.2; simp; omega⟩)
  | '\\' :: e :: cs => do
    let c ← shortEscape e
    let (units, rest) ← literalUnits cs
    return (.plain c :: units, ⟨rest.1, by have := rest.2; simp; omega⟩)
  | c :: cs =>
    -- Control characters have to be escaped, and a backslash at the end escapes nothing.
    if c.toNat < 0x20 ∨ c = '\\' then none
    else do
      let (units, rest) ← literalUnits cs
      return (.plain c :: units, ⟨rest.1, by have := rest.2; simp; omega⟩)

/-- The text of a literal. Escapes of a high and a low surrogate in a row are one character; a
    surrogate on its own leaves the literal without text. -/
def unitsText : List Unit16 → Option (List Char)
  | [] => some []
  | .plain c :: us => (unitsText us).map (c :: ·)
  | .unit n :: us =>
    if n < 0xD800 ∨ 0xDFFF < n then (unitsText us).map (Char.ofNat n :: ·)
    -- A low surrogate without a high one in front of it.
    else if 0xDC00 ≤ n then none
    else
      match us with
      | .unit m :: us =>
        if 0xDC00 ≤ m ∧ m ≤ 0xDFFF then
          (unitsText us).map (Char.ofNat (0x10000 + (n - 0xD800) * 0x400 + (m - 0xDC00)) :: ·)
        else none
      | _ => none

/-- A string literal after its opening quote. -/
def literal (cs : List Char) : Option (Option String × Rest cs) := do
  let (units, rest) ← literalUnits cs
  return ((unitsText units).map String.ofList, rest)

/-- The value of a string literal. -/
def literalValue : Option String → Json
  | some s => .string s
  | none => .void

/-! ## Values -/

/-- The text after blanks and the given character. -/
def symbol (wanted : Char) (cs : List Char) : Option (Rest cs) :=
  match h : (skipSpace cs).1 with
  | c :: rest =>
    if c = wanted then
      some ⟨rest, by have := (skipSpace cs).2; rw [h] at this; simp at this; omega⟩
    else none
  | [] => none

/-- The value of a container where `depth` containers may be opened, itself included. -/
def within (depth : Nat) (container : Json) : Json :=
  if depth = 0 then .void else container

mutual

/-- The value at the front of a text, blanks before it allowed. `depth` containers may be opened
    around one another before they are void. -/
def value (depth : Nat) (cs : List Char) : Option (Json × Rest cs) :=
  match h : (skipSpace cs).1 with
  | [] => none
  | c :: rest =>
    have hlen : rest.length < cs.length := by
      have := (skipSpace cs).2; rw [h] at this; simp at this; omega
    if c = 'n' then
      (expect ['u', 'l', 'l'] rest).map fun r => (.null, ⟨r.1, by have := r.2; omega⟩)
    else if c = 't' then
      (expect ['r', 'u', 'e'] rest).map fun r => (.bool true, ⟨r.1, by have := r.2; omega⟩)
    else if c = 'f' then
      (expect ['a', 'l', 's', 'e'] rest).map fun r => (.bool false, ⟨r.1, by have := r.2; omega⟩)
    else if c = '"' then
      (literal rest).map fun (s, r) => (literalValue s, ⟨r.1, by have := r.2; omega⟩)
    -- An empty container has to be told apart first, since a comma never comes before the first
    -- item.
    else if c = '[' then
      match symbol ']' rest with
      | some r => some (within depth (.array []), ⟨r.1, by have := r.2; omega⟩)
      | none =>
        (items (depth - 1) rest).map fun (js, r) =>
          (within depth (.array js), ⟨r.1, by have := r.2; omega⟩)
    else if c = '\x7b' then
      match symbol '\x7d' rest with
      | some r => some (within depth (.object []), ⟨r.1, by have := r.2; omega⟩)
      | none =>
        (members (depth - 1) rest).map fun (ms, r) =>
          (within depth (.object ms), ⟨r.1, by have := r.2; omega⟩)
    else
      (number (c :: rest)).map fun (j, r) =>
        (j, ⟨r.1, by have := r.2; simp only [List.length_cons] at this; omega⟩)
termination_by (cs.length, 0)

/-- The items of an array after its opening bracket or a comma, up to the closing bracket. -/
def items (depth : Nat) (cs : List Char) : Option (List Json × Rest cs) :=
  match value depth cs with
  | none => none
  | some (j, r) =>
    match symbol ']' r.1 with
    | some e => some ([j], ⟨e.1, by have := e.2; have := r.2; omega⟩)
    | none =>
      match symbol ',' r.1 with
      | none => none
      -- After a comma there has to be another item.
      | some k =>
        have : k.1.length < cs.length := by have := k.2; have := r.2; omega
        (items depth k.1).map fun (js, e) =>
          (j :: js, ⟨e.1, by have := e.2; omega⟩)
termination_by (cs.length, 1)

/-- The members of an object after its opening brace or a comma, up to the closing brace. -/
def members (depth : Nat) (cs : List Char) : Option (List (Option String × Json) × Rest cs) :=
  match symbol '"' cs with
  | none => none
  | some q =>
    match literal q.1 with
    | none => none
    -- The name may be half of a surrogate pair, and then stands for no text.
    | some (key, l) =>
      match symbol ':' l.1 with
      | none => none
      | some colon =>
        have hcolon : colon.1.length < cs.length := by
          have := colon.2; have := l.2; have := q.2; omega
        match value depth colon.1 with
        | none => none
        | some (j, r) =>
          match symbol '\x7d' r.1 with
          | some e => some ([(key, j)], ⟨e.1, by have := e.2; have := r.2; omega⟩)
          | none =>
            match symbol ',' r.1 with
            | none => none
            | some k =>
              have : k.1.length < cs.length := by have := k.2; have := r.2; omega
              (members depth k.1).map fun (ms, e) =>
                ((key, j) :: ms, ⟨e.1, by have := e.2; omega⟩)
termination_by (cs.length, 1)

end

end Reader

/-- The depth to which the containers of a document stand for something. -/
def maxDepth : Nat := 127

/-- Reads a text that is one value. Containers inside `depth` others are void. -/
def parseWithin (depth : Nat) (s : String) : Option Json := do
  let (j, rest) ← Reader.value depth s.toList
  -- Nothing but blanks may follow.
  if (Reader.skipSpace rest.1).1.isEmpty then return j else none

/-- Reads a text that is one value. -/
def parse (s : String) : Option Json :=
  parseWithin maxDepth s

end HotRename.Json
