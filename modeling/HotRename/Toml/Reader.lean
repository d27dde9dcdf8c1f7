import HotRename.Toml.Scalar

/-!
# Reading TOML

A document is a list of lines: a header, a key with its value, or nothing, each with a comment
after it if there is one. Only strings in tripled quotes and arrays go over several lines.
-/

namespace HotRename.Toml.Reader

/-! ## Blanks, line ends and comments -/

/-- A blank within a line. -/
def isBlank (c : Char) : Bool :=
  c = ' ' || c = '\t'

/-- A character of a comment or a literal string: no control character but the tab. -/
def isPlain (c : Char) : Bool :=
  c = '\t' || (0x20 ≤ c.toNat && c.toNat ≠ 0x7F)

/-- The text after blanks. -/
def skipBlanks (cs : List Char) : List Char :=
  cs.dropWhile isBlank

/-- The text after a line end, which the end of the text is too. -/
def lineEnd : List Char → Option (List Char)
  | [] => some []
  | '\n' :: cs => some cs
  | '\r' :: '\n' :: cs => some cs
  | _ => none

/-- The text after a comment, which may be missing. -/
def skipComment : List Char → List Char
  | '#' :: cs => cs.dropWhile isPlain
  | cs => cs

/-- The text after the end of a line with nothing but blanks and a comment before it. -/
def lineRest (cs : List Char) : Option (List Char) :=
  lineEnd (skipComment (skipBlanks cs))

/-- The text after blanks, line ends and comments, as they may stand inside an array. -/
def skipFill : (inComment : Bool) → List Char → List Char
  | _, [] => []
  | _, '\n' :: cs => skipFill false cs
  | _, '\r' :: '\n' :: cs => skipFill false cs
  -- A control character ends a comment, and is then left for the array to refuse.
  | true, c :: cs => if isPlain c then skipFill true cs else c :: cs
  | false, c :: cs =>
    if isBlank c then skipFill false cs
    else if c = '#' then skipFill true cs
    else c :: cs

/-! ## Strings -/

/-- The character that a code point stands for, if it stands for one. -/
def charOfCode (n : Nat) : Option Char :=
  if n < 0xD800 ∨ (0xDFFF < n ∧ n < 0x110000) then some (Char.ofNat n) else none

/-- The character with the given hexadecimal digits. -/
def unicodeEscape (digits : List Char) : Option Char :=
  if digits.all Scalar.isHex then charOfCode (Scalar.valueOf 16 digits) else none

/-- The character that an escape of one letter stands for. -/
def shortEscape (c : Char) : Option Char :=
  if c = '"' ∨ c = '\\' then some c
  else if c = 'b' then some (Char.ofNat 0x08)
  else if c = 't' then some '\t'
  else if c = 'n' then some '\n'
  else if c = 'f' then some (Char.ofNat 0x0C)
  else if c = 'r' then some '\r'
  else none

/-- Puts a character in front of what was read after it. -/
def consTo (c : Char) (result : Option (List Char × List Char)) :
    Option (List Char × List Char) :=
  result.map fun (cs, rest) => (c :: cs, rest)

/-- A string after its opening quote, with escapes. -/
def basicString : List Char → Option (List Char × List Char)
  | [] => none
  | '"' :: cs => some ([], cs)
  | '\\' :: 'u' :: a :: b :: c :: d :: cs =>
    match unicodeEscape [a, b, c, d] with
    | some e => consTo e (basicString cs)
    | none => none
  | '\\' :: 'U' :: a :: b :: c :: d :: e :: f :: g :: h :: cs =>
    match unicodeEscape [a, b, c, d, e, f, g, h] with
    | some e => consTo e (basicString cs)
    | none => none
  -- Escapes of a code point with too few characters behind them fall through to here, and fail.
  | '\\' :: e :: cs =>
    match shortEscape e with
    | some e => consTo e (basicString cs)
    | none => none
  | c :: cs => if isPlain c ∧ c ≠ '\\' then consTo c (basicString cs) else none

/-- A string after its opening quote, without escapes. -/
def literalString : List Char → Option (List Char × List Char)
  | [] => none
  | '\'' :: cs => some ([], cs)
  | c :: cs => if isPlain c then consTo c (literalString cs) else none

/-- Nothing but blanks stands before the end of the line. -/
def foldsHere (cs : List Char) : Bool :=
  match skipBlanks cs with
  | '\n' :: _ => true
  | '\r' :: '\n' :: _ => true
  | _ => false

/-- A string after three opening quotes, with escapes. `folding` is set while blanks and line ends
    after a backslash are passed over. -/
def longBasicString : (folding : Bool) → List Char → Option (List Char × List Char)
  | _, [] => none
  | true, '\n' :: cs => longBasicString true cs
  | true, '\r' :: '\n' :: cs => longBasicString true cs
  | true, ' ' :: cs => longBasicString true cs
  | true, '\t' :: cs => longBasicString true cs
  -- Up to two quotes may stand right in front of the three that close the string.
  | _, '"' :: '"' :: '"' :: '"' :: '"' :: cs => some (['"', '"'], cs)
  | _, '"' :: '"' :: '"' :: '"' :: cs => some (['"'], cs)
  | _, '"' :: '"' :: '"' :: cs => some ([], cs)
  | _, '\n' :: cs => consTo '\n' (longBasicString false cs)
  | _, '\r' :: '\n' :: cs => consTo '\n' (longBasicString false cs)
  | _, '\\' :: 'u' :: a :: b :: c :: d :: cs =>
    match unicodeEscape [a, b, c, d] with
    | some e => consTo e (longBasicString false cs)
    | none => none
  | _, '\\' :: 'U' :: a :: b :: c :: d :: e :: f :: g :: h :: cs =>
    match unicodeEscape [a, b, c, d, e, f, g, h] with
    | some e => consTo e (longBasicString false cs)
    | none => none
  | _, '\\' :: e :: cs =>
    -- A backslash at the end of a line takes the line end and the blanks after it away.
    if foldsHere (e :: cs) then longBasicString true (e :: cs)
    else
      match shortEscape e with
      | some e => consTo e (longBasicString false cs)
      | none => none
  | _, c :: cs => if isPlain c ∧ c ≠ '\\' then consTo c (longBasicString false cs) else none

/-- A string after three opening quotes, without escapes. -/
def longLiteralString : List Char → Option (List Char × List Char)
  | [] => none
  | '\'' :: '\'' :: '\'' :: '\'' :: '\'' :: cs => some (['\'', '\''], cs)
  | '\'' :: '\'' :: '\'' :: '\'' :: cs => some (['\''], cs)
  | '\'' :: '\'' :: '\'' :: cs => some ([], cs)
  | '\n' :: cs => consTo '\n' (longLiteralString cs)
  | '\r' :: '\n' :: cs => consTo '\n' (longLiteralString cs)
  | c :: cs => if isPlain c then consTo c (longLiteralString cs) else none

/-- The text after a line end, if it starts with one. -/
def skipFirstLineEnd : List Char → List Char
  | '\n' :: cs => cs
  | '\r' :: '\n' :: cs => cs
  | cs => cs

/-- The string at the front of a text. -/
def string : List Char → Option (List Char × List Char)
  | '"' :: '"' :: '"' :: cs => longBasicString false (skipFirstLineEnd cs)
  | '"' :: cs => basicString cs
  | '\'' :: '\'' :: '\'' :: cs => longLiteralString (skipFirstLineEnd cs)
  | '\'' :: cs => literalString cs
  | _ => none

/-! ## Keys -/

/-- A character of a key without quotes. -/
def isBare (c : Char) : Bool :=
  c.isAlphanum || c = '_' || c = '-'

/-- One part of a dotted key. -/
def simpleKey : List Char → Option (String × List Char)
  | '"' :: cs => (basicString cs).map fun (k, rest) => (String.ofList k, rest)
  | '\'' :: cs => (literalString cs).map fun (k, rest) => (String.ofList k, rest)
  | cs =>
    if (cs.takeWhile isBare).isEmpty then none
    else some (String.ofList (cs.takeWhile isBare), cs.dropWhile isBare)

/-- Number of parts that a dotted key may have, and of containers around a value. -/
def maxDepth : Nat := 79

/-- A dotted key of at most `parts` parts, blanks around each of them. -/
def key : (parts : Nat) → List Char → Option (List String × List Char)
  | 0, _ => none
  | parts + 1, cs => do
    let (first, rest) ← simpleKey (skipBlanks cs)
    match skipBlanks rest with
    -- What follows the dot counts as one part less.
    | '.' :: rest =>
      let (others, rest) ← key parts rest
      return (first :: others, rest)
    | rest => return ([first], rest)

/-- The parts of a dotted key before its last, and the last. -/
def splitLast (parts : List String) : Option (List String × String) :=
  parts.getLast?.map fun last => (parts.dropLast, last)

/-! ## Values -/

mutual

/-- The value at the front of a text. `depth` containers may be opened around one another. -/
def value (fuel depth : Nat) (cs : List Char) : Option (Node × List Char) :=
  match fuel with
  | 0 => none
  | fuel + 1 =>
    match cs with
    | '[' :: cs =>
      -- Each container uses up one level, whether it is empty or not.
      match depth with
      | 0 => none
      | depth + 1 => (items fuel depth (skipFill false cs)).map fun (ns, rest) => (.array ns, rest)
    | '\x7b' :: cs =>
      match depth with
      | 0 => none
      | depth + 1 =>
        match skipBlanks cs with
        | '\x7d' :: rest => some (.table .inline [], rest)
        | cs => (pairs fuel depth [] cs).map fun (es, rest) => (.table .inline es, rest)
    | cs =>
      -- What is no container and no string is read as a whole up to the next other character.
      if cs.head? = some '"' ∨ cs.head? = some '\'' then
        (string cs).map fun (s, rest) => (.text (String.ofList s), rest)
      else Scalar.read cs

/-- The items of an array up to its closing bracket. A comma may follow the last one. -/
def items (fuel depth : Nat) (cs : List Char) : Option (List Node × List Char) :=
  match fuel with
  | 0 => none
  | fuel + 1 =>
    match cs with
    -- Either there is no item, or the last one is followed by a comma.
    | ']' :: rest => some ([], rest)
    | cs =>
      match value fuel depth cs with
      | none => none
      | some (first, rest) =>
        match skipFill false rest with
        | ']' :: rest => some ([first], rest)
        | ',' :: rest =>
          (items fuel depth (skipFill false rest)).map fun (ns, rest) => (first :: ns, rest)
        | _ => none

/-- The pairs of a table written in line, up to its closing brace. -/
def pairs (fuel depth : Nat) (entries : Entries) (cs : List Char) : Option (Entries × List Char) :=
  match fuel with
  | 0 => none
  | fuel + 1 =>
    match key maxDepth cs with
    | some (parts, '=' :: rest) =>
      -- The value is read before the key is looked up among the entries.
      match splitLast parts, value fuel depth (skipBlanks rest) with
      | some (path, last), some (node, rest) =>
        match entries.insert .inline path last node with
        | none => none
        | some entries =>
          match skipBlanks rest with
          | '\x7d' :: rest => some (entries, rest)
          | ',' :: rest => pairs fuel depth entries rest
          | _ => none
      | _, _ => none
    | _ => none

end

/-! ## Documents -/

/-- A document under way: its entries, and the header that the next pair belongs to. -/
structure State where
  entries : Entries
  header : List String

/-- Reads a header after its opening bracket. -/
def header (s : State) (cs : List Char) : Option (State × List Char) := do
  match cs with
  -- Two brackets add a row to a list of tables.
  | '[' :: cs =>
    let (parts, rest) ← key maxDepth cs
    let (path, last) ← splitLast parts
    match rest with
    | ']' :: ']' :: rest =>
      let entries ← s.entries.defineRow path last
      return ({ entries, header := parts }, ← lineRest rest)
    | _ => none
  | cs =>
    let (parts, rest) ← key maxDepth cs
    let (path, last) ← splitLast parts
    match rest with
    | ']' :: rest =>
      let entries ← s.entries.define path last
      return ({ entries, header := parts }, ← lineRest rest)
    | _ => none

/-- Reads a key with its value. -/
def pair (s : State) (cs : List Char) : Option (State × List Char) := do
  let (parts, rest) ← key maxDepth cs
  let (path, last) ← splitLast parts
  match rest with
  | '=' :: rest =>
    -- No more than two calls are nested for each character, so this much is enough.
    let (node, rest) ← value (2 * rest.length + 2) maxDepth (skipBlanks rest)
    let entries ← s.entries.insertAt s.header path last node
    return ({ s with entries }, ← lineRest rest)
  | _ => none

/-- Reads lines until the text ends, at most as many as `fuel` says. -/
def lines : (fuel : Nat) → State → List Char → Option State
  | 0, _, _ => none
  | fuel + 1, s, cs =>
    match skipBlanks cs with
    | [] => some s
    | '#' :: cs => do lines fuel s (← lineRest ('#' :: cs))
    | '\n' :: cs => lines fuel s cs
    | '\r' :: '\n' :: cs => lines fuel s cs
    -- A line that starts neither so nor with a comment is a key with its value.
    | '[' :: cs => do
      let (s, rest) ← header s cs
      lines fuel s rest
    | cs => do
      let (s, rest) ← pair s cs
      lines fuel s rest

/-- The text without the mark that may stand at its start to tell the order of bytes. -/
def skipByteOrderMark : List Char → List Char
  | [] => []
  | c :: cs => if c.toNat = 0xFEFF then cs else c :: cs

end Reader

/-- Reads a document. -/
def parse (text : String) : Option Entries :=
  let cs := Reader.skipByteOrderMark text.toList
  (Reader.lines (cs.length + 1) { entries := [], header := [] } cs).map Reader.State.entries

end HotRename.Toml
