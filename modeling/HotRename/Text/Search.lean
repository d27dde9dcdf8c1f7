import HotRename.Text.Character
import HotRename.Text.Offset

/-!
# Searching source text

A word boundary lies between two neighbouring characters of which exactly one is a word
character; the places before the first and after the last character count as no word character. A
name occurs as a whole word where its characters stand with a word boundary on either side.

`maskComments` replaces the text of comments by spaces, one for every byte, so that a search in
the result finds only code and reports offsets that are right for the source. Line comments run
from `//` to the end of the line, block comments from `/*` to `*/`. String literals in either
quote style are kept as they are, and a comment marker inside one opens no comment; a backslash
keeps the next character from ending the literal, and a line end closes a literal left open.
-/

namespace HotRename.Text

/-! ## Whole words -/

/-- Exactly one of the two neighbours is a word character. -/
def isWordBoundary (words : WordClass) (before after : Option Char) : Bool :=
  before.any words.isWord != after.any words.isWord

/-- The name stands at the head of the text with a word boundary on either side. `before` is the
    character in front of the text, if there is one. -/
def wordAtHead (words : WordClass) (name : List Char) (before : Option Char) (text : List Char) :
    Bool :=
  name.isPrefixOf text && isWordBoundary words before text.head? &&
    -- An empty name has no last character; then the character in front of the text is its
    -- neighbour.
    isWordBoundary words ((name.getLast?).or before) (text.drop name.length).head?

/-- The offset of the first whole-word occurrence of the name, counting from `offset`. -/
def findWordFrom (words : WordClass) (name : List Char) (before : Option Char) (offset : Nat) :
    List Char → Option Nat
  -- At the end of the text only the empty name can stand.
  | [] => if wordAtHead words name before [] then some offset else none
  | c :: cs =>
    if wordAtHead words name before (c :: cs) then some offset
    else findWordFrom words name (some c) (offset + c.utf8Size) cs

/-- The byte offset of the first whole-word occurrence of the name in the text. -/
def findWord (words : WordClass) (name text : List Char) : Option Nat :=
  findWordFrom words name none 0 text

/-- The name occurs in the text as a whole word. -/
def hasWord (words : WordClass) (name text : List Char) : Bool :=
  (findWord words name text).isSome

/-! ## Comments -/

/-- What the character to be read next belongs to. -/
inductive Region where
  | code
  | lineComment
  | blockComment
  | literal (quote : Char)
  deriving DecidableEq, Repr

/-- A character of a comment as spaces, one for each of its bytes; line ends stay. -/
def blankOut (c : Char) : List Char :=
  if c = '\n' then ['\n'] else List.replicate c.utf8Size ' '

/-- The characters with every comment blanked out, read from the given region on. -/
def maskFrom : Region → List Char → List Char
  | _, [] => []
  -- Markers have two characters, both of one byte, so two spaces keep the offsets.
  | .code, '/' :: '/' :: cs => ' ' :: ' ' :: maskFrom .lineComment cs
  | .code, '/' :: '*' :: cs => ' ' :: ' ' :: maskFrom .blockComment cs
  | .code, c :: cs =>
    c :: maskFrom (if c = '"' ∨ c = '\'' then .literal c else .code) cs
  | .lineComment, c :: cs =>
    blankOut c ++ maskFrom (if c = '\n' then .code else .lineComment) cs
  | .blockComment, '*' :: '/' :: cs => ' ' :: ' ' :: maskFrom .code cs
  | .blockComment, c :: cs => blankOut c ++ maskFrom .blockComment cs
  | .literal _, '\\' :: [] => ['\\']
  -- The escaped character is passed over, also if it is a line end.
  | .literal quote, '\\' :: c :: cs => '\\' :: c :: maskFrom (.literal quote) cs
  | .literal quote, c :: cs =>
    c :: maskFrom (if c = quote ∨ c = '\n' then .code else .literal quote) cs

/-- The source with the text of its comments replaced by spaces. -/
def maskComments (source : List Char) : List Char :=
  maskFrom .code source

end HotRename.Text
