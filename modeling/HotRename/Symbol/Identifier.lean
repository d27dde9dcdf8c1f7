import HotRename.Text.Character

/-!
# Names in source text

A name is an ASCII letter or underscore followed by ASCII letters, digits and underscores. Words
of the language are reserved: no symbol may be called by one, in whatever case it is written.
-/

namespace HotRename

/-- Why a name breaks the rule for identifiers. -/
inductive IdentifierReason where
  | empty
  | surroundingWhitespace
  | leadingDigit
  | invalidCharacter
  deriving DecidableEq, Repr

/-- A name that is no identifier. -/
structure IdentifierError where
  name : String
  reason : IdentifierReason
  deriving DecidableEq, Repr

namespace IdentifierReason

/-- The reason in words. -/
def message : IdentifierReason → String
  | empty => "identifier is empty"
  | surroundingWhitespace => "identifier has surrounding whitespace"
  | leadingDigit => "identifier must not start with a digit"
  | invalidCharacter => "identifier may only contain letters, digits and underscores"

/-- The reason as documents name it. -/
def name : IdentifierReason → String
  | empty => "empty"
  | surroundingWhitespace => "surrounding_whitespace"
  | leadingDigit => "leading_digit"
  | invalidCharacter => "invalid_character"

end IdentifierReason

/-- The error in words. -/
def IdentifierError.message (e : IdentifierError) : String :=
  s!"invalid identifier '{e.name}': {e.reason.message}"

namespace Identifier

/-- A character that may start a name. -/
def isStart (c : Char) : Bool :=
  c.isAlpha || c = '_'

/-- A character that may continue a name. -/
def isPart (c : Char) : Bool :=
  c.isAlphanum || c = '_'

/-- The characters are a name. -/
def isName : List Char → Bool
  | [] => false
  | c :: cs => isStart c && cs.all isPart

/-- The first rule that the characters break, for characters that are no name. -/
def reason (cs : List Char) : IdentifierReason :=
  if cs.isEmpty then .empty
  -- A blank at the end is reported before a digit at the start.
  else if cs.head?.any Text.isBlank || cs.getLast?.any Text.isBlank then .surroundingWhitespace
  else if cs.head?.any Char.isDigit then .leadingDigit
  else .invalidCharacter

/-- Accepts a name, or says which rule it breaks. -/
def validate (name : String) : Except IdentifierError Unit :=
  if isName name.toList then .ok () else .error { name, reason := reason name.toList }

end Identifier

/-- The words of the language, in lower case. -/
def builtinWords : List String :=
  ["if", "then", "else", "while", "do", "until", "for", "repeat", "switch", "case", "default",
    "break", "continue", "exit", "return", "with", "begin", "end", "try", "catch", "finally",
    "throw", "var", "globalvar", "function", "constructor", "static", "new", "delete", "enum",
    "macro", "and", "or", "not", "xor", "div", "mod", "self", "other", "all", "noone", "global",
    "true", "false", "undefined", "infinity", "nan", "pi"]

/-- The name is a word of the language, in whatever case. -/
def isBuiltinWord (name : String) : Bool :=
  builtinWords.contains name.toLower

/-- A set of reserved words, each in lower case. -/
structure ReservedWords where
  words : List String
  deriving Repr

namespace ReservedWords

/-- The words of the language only. -/
def builtin : ReservedWords := ⟨builtinWords⟩

/-- The form under which a word is reserved: trimmed and in lower case. -/
def normal (word : String) : String :=
  (Text.trim word).toLower

/-- Reserves a word as well. A word of blanks reserves nothing. -/
def insert (r : ReservedWords) (word : String) : ReservedWords :=
  -- Every word is kept in its normal form, so this finds it in whatever case it was given.
  if normal word = "" || r.words.contains (normal word) then r else ⟨r.words ++ [normal word]⟩

/-- Reserves further words as well. -/
def extend (r : ReservedWords) (words : List String) : ReservedWords :=
  words.foldl insert r

/-- The name is reserved, in whatever case it is written. -/
def contains (r : ReservedWords) (name : String) : Bool :=
  r.words.contains name.toLower

/-- Number of reserved words. -/
def size (r : ReservedWords) : Nat :=
  r.words.length

end ReservedWords
end HotRename
