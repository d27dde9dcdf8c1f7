import HotRename.Proofs.Text.Comment

/-!
# The pieces of a source text

What a comment is can be said without reading a text character by character. A source text is cut
into pieces: line comments, block comments, string literals, and single characters of the code. Each
piece is what its kind allows, and a character of the code is neither a quote nor the start of a
comment. Every text can be cut in this way, and the mask blanks out the comments among the pieces
and nothing else. Main definitions and statements:

* `Piece`, `Division`    the kinds of pieces, and a text as a sequence of them
* `exists_division`      every text can be cut into pieces
* `maskFrom_piece`       what the mask makes of a piece
* `Division.mask_eq`     the mask of a text, piece by piece
-/

namespace HotRename.Text

/-! ## Pieces -/

/-- The characters between the quotes of a string literal: a backslash stands in front of another
    character, which may be any, and apart from these there is neither a quote nor a line end. -/
inductive LiteralBody (quote : Char) : List Char → Prop where
  | nil : LiteralBody quote []
  | char {c : Char} {body : List Char} (hquote : c ≠ quote) (hescape : c ≠ '\\') (hline : c ≠ '\n')
      (h : LiteralBody quote body) : LiteralBody quote (c :: body)
  | escaped (c : Char) {body : List Char} (h : LiteralBody quote body) :
      LiteralBody quote ('\\' :: c :: body)

/-- A piece of a source text. -/
inductive Piece where
  /-- A character of the code, outside string literals. -/
  | code (c : Char)
  /-- A string literal, with what it ends in. -/
  | literal (quote : Char) (body ending : List Char)
  /-- A line comment, without the line end behind it. -/
  | lineComment (body : List Char)
  /-- A block comment, with what it ends in. -/
  | blockComment (body ending : List Char)

namespace Piece

/-- The characters of the piece. -/
def text : Piece → List Char
  | code c => [c]
  | literal quote body ending => quote :: (body ++ ending)
  | lineComment body => '/' :: '/' :: body
  | blockComment body ending => '/' :: '*' :: (body ++ ending)

/-- The piece is a comment. -/
def isComment : Piece → Bool
  | lineComment _ | blockComment _ _ => true
  | code _ | literal _ _ _ => false

/-- The piece can stand in front of the rest of a text. -/
inductive Before : Piece → List Char → Prop where
  /-- No quote, and no slash that opens a comment. -/
  | code {c : Char} {rest : List Char} (hquote : c ≠ '"' ∧ c ≠ '\'')
      (hopens : c = '/' → rest.head? ≠ some '/' ∧ rest.head? ≠ some '*') : Before (code c) rest
  /-- A literal ends with its quote, or with the line. -/
  | literal {quote : Char} {body ending rest : List Char} (hquote : quote = '"' ∨ quote = '\'')
      (hbody : LiteralBody quote body) (hending : ending = [quote] ∨ ending = ['\n']) :
      Before (literal quote body ending) rest
  /-- A literal that is left open, perhaps behind a backslash, goes to the end of the text. -/
  | openLiteral {quote : Char} {body ending : List Char} (hquote : quote = '"' ∨ quote = '\'')
      (hbody : LiteralBody quote body) (hending : ending = [] ∨ ending = ['\\']) :
      Before (literal quote body ending) []
  /-- A line comment goes to the end of the line. -/
  | lineComment {body rest : List Char} (hbody : '\n' ∉ body)
      (hrest : rest = [] ∨ rest.head? = some '\n') : Before (lineComment body) rest
  /-- A block comment goes to the first end mark. -/
  | blockComment {body rest : List Char} (hbody : ¬ ['*', '/'] <:+: body) :
      Before (blockComment body ['*', '/']) rest
  /-- A block comment that is left open goes to the end of the text. -/
  | openComment {body : List Char} (hbody : ¬ ['*', '/'] <:+: body) :
      Before (blockComment body []) []

/-- What the mask leaves of the piece. -/
def masked (p : Piece) : List Char :=
  if p.isComment then p.text.flatMap blankOut else p.text

/-- No piece is empty. -/
theorem text_ne_nil (p : Piece) : p.text ≠ [] := by
  cases p <;> simp [text]

end Piece

/-- The text is cut into the pieces. -/
inductive Division : List Char → List Piece → Prop where
  | nil : Division [] []
  | cons {p : Piece} {rest : List Char} {ps : List Piece} (hp : p.Before rest)
      (hrest : Division rest ps) : Division (p.text ++ rest) (p :: ps)

/-- The pieces together are the text. -/
theorem Division.text_eq {cs : List Char} {ps : List Piece} (h : Division cs ps) :
    cs = ps.flatMap Piece.text := by
  induction h with
  | nil => rfl
  | cons hp hrest ih => rw [List.flatMap_cons, ← ih]

/-! ## Every text can be cut -/

/-- A literal stays one when its body is extended to the front. -/
theorem Piece.Before.extendLiteral {quote : Char} {body ending rest : List Char}
    (h : (Piece.literal quote body ending).Before rest) (front : List Char)
    (hfront : LiteralBody quote body → LiteralBody quote (front ++ body)) :
    (Piece.literal quote (front ++ body) ending).Before rest := by
  cases h with
  | literal hquote hbody hending => exact .literal hquote (hfront hbody) hending
  | openLiteral hquote hbody hending => exact .openLiteral hquote (hfront hbody) hending

/-- Behind an opening quote, the text goes on with a literal. -/
theorem exists_literal {quote : Char} (hquote : quote = '"' ∨ quote = '\'') :
    ∀ cs, ∃ body ending rest, cs = body ++ ending ++ rest ∧
      (Piece.literal quote body ending).Before rest
  | [] => ⟨[], [], [], rfl, .openLiteral hquote .nil (.inl rfl)⟩
  | c :: cs => by
    by_cases hescape : c = '\\'
    · -- A backslash takes the next character with it.
      subst hescape
      match cs with
      | [] => exact ⟨[], ['\\'], [], rfl, .openLiteral hquote .nil (.inr rfl)⟩
      | d :: cs =>
        obtain ⟨body, ending, rest, rfl, hpiece⟩ := exists_literal hquote cs
        exact ⟨'\\' :: d :: body, ending, rest, rfl,
          hpiece.extendLiteral ['\\', d] (.escaped d)⟩
    · by_cases hend : c = quote ∨ c = '\n'
      · refine ⟨[], [c], cs, rfl, .literal hquote .nil ?_⟩
        simpa using hend
      · rw [not_or] at hend
        obtain ⟨body, ending, rest, rfl, hpiece⟩ := exists_literal hquote cs
        exact ⟨c :: body, ending, rest, rfl,
          hpiece.extendLiteral [c] (.char hend.1 hescape hend.2)⟩

/-- Behind the start of a line comment, the text goes on with the rest of the line. -/
theorem exists_lineComment (cs : List Char) :
    ∃ body rest, cs = body ++ rest ∧ (Piece.lineComment body).Before rest := by
  refine ⟨cs.takeWhile (· ≠ '\n'), cs.dropWhile (· ≠ '\n'), by simp, .lineComment ?_ ?_⟩
  · intro hmem
    simpa using List.all_eq_true.mp List.all_takeWhile _ hmem
  -- What follows is nothing, or the line end.
  · cases hrest : cs.dropWhile (· ≠ '\n') with
    | nil => exact .inl rfl
    | cons c rest =>
      have hhead := List.head?_dropWhile_not (· ≠ '\n') cs
      rw [hrest] at hhead
      simpa using hhead

/-- Behind the start of a block comment, the text goes on up to the first end mark. -/
theorem exists_blockComment (cs : List Char) :
    ∃ body ending rest, cs = body ++ ending ++ rest ∧
      (Piece.blockComment body ending).Before rest := by
  induction cs with
  | nil => exact ⟨[], [], [], rfl, .openComment (by simp)⟩
  | cons c cs ih =>
    by_cases hend : c = '*' ∧ cs.head? = some '/'
    · obtain ⟨rfl, hhead⟩ := hend
      obtain ⟨cs, rfl⟩ := List.head?_eq_some_iff.mp hhead
      exact ⟨[], ['*', '/'], cs, rfl, .blockComment (by simp)⟩
    · obtain ⟨body, ending, rest, rfl, hpiece⟩ := ih
      -- The end mark is not at the start of the longer body, and not in the shorter one.
      have hlonger (hbody : ¬ ['*', '/'] <:+: body) : ¬ ['*', '/'] <:+: c :: body := by
        rw [List.infix_cons_iff]
        rintro (hfirst | hinfix)
        · obtain ⟨t, ht⟩ := hfirst
          obtain ⟨rfl, rfl⟩ := List.cons.inj ht
          exact hend ⟨rfl, rfl⟩
        · exact hbody hinfix
      refine ⟨c :: body, ending, rest, rfl, ?_⟩
      cases hpiece with
      | blockComment hbody => exact .blockComment (hlonger hbody)
      | openComment hbody => exact .openComment (hlonger hbody)

/-- A text that is not empty starts with a piece. -/
theorem exists_piece (c : Char) (cs : List Char) :
    ∃ p rest, c :: cs = Piece.text p ++ rest ∧ p.Before rest := by
  by_cases hquote : c = '"' ∨ c = '\''
  · obtain ⟨body, ending, rest, rfl, hpiece⟩ := exists_literal hquote cs
    exact ⟨_, rest, rfl, hpiece⟩
  · rw [not_or] at hquote
    -- A slash may open a comment of one kind or the other, or be a character of the code.
    by_cases hslash : c = '/' ∧ cs.head? = some '/'
    · obtain ⟨rfl, hhead⟩ := hslash
      obtain ⟨cs, rfl⟩ := List.head?_eq_some_iff.mp hhead
      obtain ⟨body, rest, rfl, hpiece⟩ := exists_lineComment cs
      exact ⟨_, rest, rfl, hpiece⟩
    · by_cases hstar : c = '/' ∧ cs.head? = some '*'
      · obtain ⟨rfl, hhead⟩ := hstar
        obtain ⟨cs, rfl⟩ := List.head?_eq_some_iff.mp hhead
        obtain ⟨body, ending, rest, rfl, hpiece⟩ := exists_blockComment cs
        exact ⟨_, rest, rfl, hpiece⟩
      · refine ⟨.code c, cs, rfl, .code hquote fun hc => ⟨fun h => hslash ⟨hc, h⟩, fun h => ?_⟩⟩
        exact hstar ⟨hc, h⟩

/-- Every text can be cut into pieces. -/
theorem exists_division (cs : List Char) : ∃ ps, Division cs ps := by
  -- By the length of the text, which each piece shortens.
  induction hlen : cs.length using Nat.strongRecOn generalizing cs with
  | _ n ih =>
    cases cs with
    | nil => exact ⟨[], .nil⟩
    | cons c cs =>
      obtain ⟨p, rest, hsplit, hpiece⟩ := exists_piece c cs
      have hshorter : rest.length < n := by
        have hpos := List.length_pos_iff.mpr p.text_ne_nil
        rw [← hlen, hsplit, List.length_append]
        omega
      obtain ⟨ps, hps⟩ := ih rest.length hshorter rest rfl
      exact ⟨p :: ps, hsplit ▸ .cons hpiece hps⟩

/-! ## The mask of a piece -/

/-- Inside a literal, everything is kept. -/
theorem maskFrom_literalBody {quote : Char} {body : List Char} (h : LiteralBody quote body)
    (cs : List Char) :
    maskFrom (.literal quote) (body ++ cs) = body ++ maskFrom (.literal quote) cs := by
  induction h with
  | nil => rfl
  | char hquote hescape hline h ih => simp [maskFrom, hquote, hescape, hline, ih]
  | escaped c h ih => simp [maskFrom, ih]

/-- A line comment is blanked out up to the line end, where the code goes on. -/
theorem maskFrom_lineComment {body rest : List Char} (hbody : '\n' ∉ body)
    (hrest : rest = [] ∨ rest.head? = some '\n') :
    maskFrom .lineComment (body ++ rest) = body.flatMap blankOut ++ maskFrom .code rest := by
  induction body with
  | nil =>
    rcases hrest with rfl | hhead
    · rfl
    · obtain ⟨rest, rfl⟩ := List.head?_eq_some_iff.mp hhead
      simp [maskFrom, blankOut]
  | cons c body ih =>
    rw [List.mem_cons, not_or] at hbody
    rw [List.cons_append, maskFrom, if_neg (Ne.symm hbody.1), ih hbody.2, List.flatMap_cons,
      List.append_assoc]

/-- A block comment is blanked out as long as there is no end mark. -/
theorem maskFrom_blockComment {body : List Char} (hbody : ¬ ['*', '/'] <:+: body)
    (rest : List Char) (hrest : rest.head? ≠ some '/') :
    maskFrom .blockComment (body ++ rest) =
      body.flatMap blankOut ++ maskFrom .blockComment rest := by
  induction body with
  | nil => rfl
  | cons c body ih =>
    rw [List.infix_cons_iff, not_or] at hbody
    -- A star at the end of the body is not followed by a slash either.
    have hgoes : ∀ cs, c = '*' → body ++ rest ≠ '/' :: cs := by
      rintro cs rfl hcs
      cases body with
      | nil => exact hrest (by rw [← List.nil_append rest, hcs]; rfl)
      | cons d body =>
        obtain ⟨rfl, -⟩ := List.cons.inj hcs
        exact hbody.1 ⟨body, rfl⟩
    rw [List.cons_append, maskFrom, ih hbody.2, List.flatMap_cons, List.append_assoc]
    exact hgoes

/-- A quote opens a literal, and closes it if there is no other character between. -/
theorem maskFrom_quote {quote : Char} (hquote : quote = '"' ∨ quote = '\'') (cs : List Char) :
    maskFrom .code (quote :: cs) = quote :: maskFrom (.literal quote) cs ∧
      maskFrom (.literal quote) (quote :: cs) = quote :: maskFrom .code cs := by
  rcases hquote with rfl | rfl <;> simp [maskFrom]

/-- What the mask makes of a piece does not depend on the text behind it, which it reads as code. -/
theorem maskFrom_piece {p : Piece} {rest : List Char} (h : p.Before rest) :
    maskFrom .code (p.text ++ rest) = p.masked ++ maskFrom .code rest := by
  cases h with
  | @code c _ hquote hopens =>
    show maskFrom .code (c :: rest) = c :: maskFrom .code rest
    rw [maskFrom, if_neg (by simpa using hquote)]
    · rintro cs hc rfl
      exact (hopens hc).1 rfl
    · rintro cs hc rfl
      exact (hopens hc).2 rfl
  | @literal quote body ending _ hquote hbody hending =>
    -- The quote or the line end closes the literal.
    have hclose : maskFrom (.literal quote) (ending ++ rest) = ending ++ maskFrom .code rest := by
      rcases hending with rfl | rfl
      · exact (maskFrom_quote hquote rest).2
      · simp [maskFrom]
    show maskFrom .code (quote :: (body ++ ending ++ rest)) = quote :: (body ++ ending ++ _)
    rw [(maskFrom_quote hquote _).1, List.append_assoc, maskFrom_literalBody hbody, hclose,
      List.append_assoc]
  | @openLiteral quote body ending hquote hbody hending =>
    have hclose : maskFrom (.literal quote) ending = ending := by
      rcases hending with rfl | rfl <;> simp [maskFrom]
    show maskFrom .code (quote :: (body ++ ending ++ [])) = quote :: (body ++ ending ++ [])
    rw [List.append_nil, (maskFrom_quote hquote _).1, maskFrom_literalBody hbody, hclose]
  | @lineComment body _ hbody hrest =>
    show maskFrom .code ('/' :: '/' :: (body ++ rest)) =
      ' ' :: ' ' :: (body.flatMap blankOut ++ maskFrom .code rest)
    rw [maskFrom, maskFrom_lineComment hbody hrest]
  | @blockComment body _ hbody =>
    show maskFrom .code ('/' :: '*' :: (body ++ ['*', '/'] ++ rest)) =
      ' ' :: ' ' :: ((body ++ ['*', '/']).flatMap blankOut ++ maskFrom .code rest)
    rw [maskFrom, List.append_assoc, maskFrom_blockComment hbody _ (by simp), List.flatMap_append,
      List.append_assoc]
    simp only [List.cons_append, List.nil_append, maskFrom]
    rfl
  | @openComment body hbody =>
    show maskFrom .code ('/' :: '*' :: (body ++ [] ++ [])) =
      ' ' :: ' ' :: ((body ++ []).flatMap blankOut ++ [])
    have hblank := maskFrom_blockComment hbody [] (by simp)
    simp only [List.append_nil] at hblank ⊢
    rw [maskFrom, hblank, maskFrom, List.append_nil]

/-- The mask of a text is made piece by piece. -/
theorem Division.mask_eq {cs : List Char} {ps : List Piece} (h : Division cs ps) :
    maskComments cs = ps.flatMap Piece.masked := by
  induction h with
  | nil => rfl
  | cons hp hrest ih => rw [maskComments, maskFrom_piece hp, List.flatMap_cons, ← ih, maskComments]

end HotRename.Text
