import Mathlib.Data.Int.Notation
import Mathlib.Data.List.Dedup

/-!
# Tokens and layout

The lexer of `lexer.rs`: `rawTokens` over the generated matcher, and the layout pass `Layout.run`,
which turns the raw tokens into the stream the parser reads.  A source text is its bytes, and a
position is a byte offset, as in the source.

The matcher logos generates from the token rules is a parameter (`Lexer`).  What is taken from its
documentation is carried by the structure: a match is never empty, starts at or after the position
asked for and ends within the text, and no rule produces a token of the layout pass.

Stacks are written innermost first.  The layout stack is never empty, so it is a level and the
levels that enclose it.
-/

namespace Cambra.Chl

/-- The bytes of a text. -/
abbrev Text := List UInt8

/-- The byte of `\n`. -/
def newlineByte : UInt8 := 10

/-- A byte range in one source file. -/
structure Span where
  file : ℕ
  start : ℕ
  stop : ℕ
deriving DecidableEq, Repr

namespace Span

/-- The range covers no byte. -/
def isEmpty (span : Span) : Bool := span.start == span.stop

/-- The empty range at an offset. -/
def at_ (file offset : ℕ) : Span := ⟨file, offset, offset⟩

@[simp] lemma isEmpty_at (file offset : ℕ) : (at_ file offset).isEmpty = true := by
  simp [at_, isEmpty]

end Span

/-- The keywords. -/
inductive Keyword where
  | trueLit | falseLit | where_ | and_ | or_ | not_ | if_ | elif | else_ | for_ | in_ | def_
  | return_ | yield_ | pass | with_ | match_ | case_ | forall_ | requires | type_ | impl | instance_
  | trait | import_ | use | as_ | pub | run | param | const | this
deriving DecidableEq, Repr

/-- The operators. -/
inductive Operator where
  | lShiftEq | lShift | eqEq | notEq | ltE | ltColon | gtE | plusPlus | plusEq | caretPlus | caretEq
  | minusEq | arrow | doubleArrow | dataArrow | starStar | starEq | doubleSlashEq | doubleSlash
  | plus | minus | star | amp | pipe | caret | eq | lt | gt
deriving DecidableEq, Repr

/-- The tokens. -/
inductive Token where
  | newline
  /-- Synthesised by the layout pass, as the next three are. -/
  | indent
  | dedent
  | blockValueIndent
  | blockValueDedent
  | error
  | keyword (k : Keyword)
  | operator (o : Operator)
  | lParen
  | rParen
  | lBracket
  | rBracket
  | bang
  | lBrace
  | rBrace
  | comma
  | colon
  | colonEq
  | colonColon
  | dot
  | dotDot
  | backtick
  | semi
  | backslash
  | at_
  | int (value : ℤ)
  | string (text : Text)
  | ident (name : Text)
deriving DecidableEq, Repr

/-- A token of the layout pass, which no rule matches. -/
def Token.isIndentation : Token → Bool
  | .indent | .dedent | .blockValueIndent | .blockValueDedent => true
  | _ => false

/-- The kind of a bracket pair. -/
inductive Bracket where
  | paren
  | square
  | brace
deriving DecidableEq, Repr

namespace Bracket

/-- The kind of bracket the token opens. -/
def openedBy : Token → Option Bracket
  | .lParen => some .paren
  | .lBracket => some .square
  | .lBrace => some .brace
  | _ => none

/-- The kind of bracket the token closes. -/
def closedBy : Token → Option Bracket
  | .rParen => some .paren
  | .rBracket => some .square
  | .rBrace => some .brace
  | _ => none

/-- The token that closes this kind of bracket. -/
def closeToken : Bracket → Token
  | .paren => .rParen
  | .square => .rBracket
  | .brace => .rBrace

end Bracket

/-- The lexical errors. -/
inductive LexError where
  | invalidToken (span : Span)
  | unterminatedString (span : Span)
  | detachedBacktick (span : Span)
  | unmatchedClose (span : Span)
  | mismatchedClose (span : Span) (close : Bracket) (opening : Span) (opener : Bracket)
  | unclosedBracket (span : Span)
  | inconsistentIndent (span : Span)
deriving DecidableEq, Repr

/-- The span the error points at. -/
def LexError.span : LexError → Span
  | .invalidToken span | .unterminatedString span | .detachedBacktick span | .unmatchedClose span
  | .unclosedBracket span | .inconsistentIndent span | .mismatchedClose span _ _ _ => span

/-- A token and where it stands. -/
abbrev Placed := Token × Span

/-! ## Raw tokens -/

/-- The bytes a two-byte escape stands for, by its second byte. -/
def escapes : List (UInt8 × UInt8) :=
  [(110, 10), (116, 9), (114, 13), (92, 92), (34, 34), (39, 39), (48, 0)]

/-- A string literal's text between its quotes, with its escapes processed. -/
def unescape : Text → Text
  | [] => []
  | [c] => [c]
  | c :: next :: rest =>
    if c = 92 then
      match escapes.lookup next with
      | some value => value :: unescape rest
      | none => 92 :: next :: unescape rest
    else c :: unescape (next :: rest)

/-- The end of the line `offset` is on. -/
def lineEnd (source : Text) (offset : ℕ) : ℕ :=
  offset + ((source.drop offset).takeWhile (· ≠ newlineByte)).length

/-- The byte at `offset` is a quote. -/
def isQuote (source : Text) (offset : ℕ) : Bool :=
  source[offset]? == some 34 || source[offset]? == some 39

/-- The matcher generated from the token rules. -/
structure Lexer (source : Text) where
  /-- The first match or failure at or after a position, with its range. -/
  next : ℕ → Option (Option Token × ℕ × ℕ)
  bounds : ∀ {pos r start stop}, next pos = some (r, start, stop) →
    pos ≤ start ∧ start < stop ∧ stop ≤ source.length
  /-- No rule produces a token of the layout pass. -/
  not_indentation : ∀ {pos t start stop}, next pos = some (some t, start, stop) →
    t.isIndentation = false
  /-- A string literal that fails to match does not reach past its line. -/
  within_line : ∀ {pos start stop}, next pos = some (none, start, stop) →
    isQuote source start = true → stop ≤ lineEnd source start

/-- The raw tokens of a source and the errors found in them. -/
structure RawTokens where
  tokens : List Placed
  errors : List LexError
  /-- The indices of the backticks no identifier follows, ascending. -/
  detached : List ℕ

/-- A failed range: merged into the failure just before it, where there is one. -/
def pushFailure (tokens : List Placed) (errors : List LexError) (span : Span) :
    List Placed × List LexError :=
  match tokens.getLast?, errors.getLast? with
  | some (.error, run), some (.invalidToken error) =>
    if run.stop = span.start then
      (tokens.dropLast ++ [(.error, { run with stop := span.stop })],
        errors.dropLast ++ [.invalidToken { error with stop := span.stop }])
    else (tokens ++ [(.error, span)], errors ++ [.invalidToken span])
  | _, _ => (tokens ++ [(.error, span)], errors ++ [.invalidToken span])

/-- The matches from `pos` on, after the tokens and errors found before. -/
def matches_ (file : ℕ) {source : Text} (lexer : Lexer source) (pos : ℕ) (tokens : List Placed)
    (errors : List LexError) : List Placed × List LexError :=
  match h : lexer.next pos with
  | none => (tokens, errors)
  | some (some tok, start, stop) =>
    matches_ file lexer stop (tokens ++ [(tok, ⟨file, start, stop⟩)]) errors
  | some (none, start, stop) =>
    if isQuote source start then
      let stop' := lineEnd source start
      let text := (source.drop (start + 1)).take (stop' - (start + 1))
      matches_ file lexer (stop + (stop' - stop))
        (tokens ++ [(.string (unescape text), ⟨file, start, stop'⟩)])
        (errors ++ [.unterminatedString ⟨file, start, start + 1⟩])
    else
      let (tokens, errors) := pushFailure tokens errors ⟨file, start, stop⟩
      matches_ file lexer stop tokens errors
termination_by source.length - pos
decreasing_by
  all_goals
    have := lexer.bounds h
    omega

/-- Whether the token at an index is a backtick no identifier immediately follows. -/
def isDetached (tokens : List Placed) (i : ℕ) : Bool :=
  match tokens[i]? with
  | some (.backtick, span) =>
    match tokens[i + 1]? with
    | some (.ident _, next) => next.start != span.stop
    | _ => true
  | _ => false

/-- The errors in the order of the places they point at. -/
def sortErrors (errors : List LexError) : List LexError :=
  errors.mergeSort fun a b => a.span.start ≤ b.span.start

/-- The raw tokens of `source`. -/
def rawTokens (file : ℕ) {source : Text} (lexer : Lexer source) : RawTokens :=
  let (tokens, errors) := matches_ file lexer 0 [] []
  let detached := (List.range tokens.length).filter (isDetached tokens)
  let errors := errors ++ detached.filterMap fun i => tokens[i]?.map fun t => .detachedBacktick t.2
  ⟨tokens, sortErrors errors, detached⟩

/-! ## Levels -/

/-- One entry of the layout stack. -/
inductive Level where
  /-- A line must match this column exactly to continue the block. -/
  | fixed (column : ℕ)
  /-- A block right-hand side's level before a continuation line has fixed its column. -/
  | pending (min : ℕ)
  /-- A block right-hand side's level after its first continuation line fixed its column. -/
  | pinned (column : ℕ)
deriving DecidableEq, Repr

namespace Level

/-- The column a line must exceed to open a block under this level. -/
def floor : Level → ℕ
  | .fixed c | .pinned c => c
  | .pending min => min

/-- The token that closes this level. -/
def closer : Level → Token
  | .fixed _ => .dedent
  | .pending _ | .pinned _ => .blockValueDedent

/-- Whether a line at `indent` that closed the level above would land right of this one. -/
def strands : Level → ℕ → Bool
  | .fixed c, indent | .pinned c, indent => c < indent
  | .pending _, _ => false

/-- Whether a line at `indent` closes this level. -/
def closesAt : Level → ℕ → Bool
  | .fixed c, indent | .pinned c, indent => c > indent
  | .pending min, indent => min ≥ indent

/-- The level is an indented block's. -/
def isFixed : Level → Bool
  | .fixed _ => true
  | _ => false

end Level

/-- Whether a statement whose head is the token opens its block from that keyword. -/
def opensBlockAtLineStart : Token → Bool
  | .keyword k => match k with
    | .if_ | .elif | .else_ | .for_ | .def_ | .type_ | .impl | .instance_ | .trait | .with_
    | .match_ | .case_ => true
    | _ => false
  | _ => false

/-! ## The layout pass -/

/-- An open bracket on the layout pass's stack. -/
structure OpenBracket where
  kind : Bracket
  span : Span
  index : ℕ
  /-- The previous run asked for this bracket to close before the line that ends its statement. -/
  resync : Bool
  /-- A line that ends the bracket's statement has started since it opened. -/
  statementEnded : Bool
  /-- The first close bracket met while this one was innermost that did not close it. -/
  stray : Option (Bracket × Span)
deriving DecidableEq, Repr

/-- Whether the bracket closes before the first line that ends its statement. -/
def OpenBracket.closesEarly (b : OpenBracket) : Bool := b.resync || b.stray.isSome

/-- The error for a bracket closed by a zero-width closer. -/
def OpenBracket.neverClosed (b : OpenBracket) : LexError :=
  match b.stray with
  | some (close, span) => .mismatchedClose span close b.span b.kind
  | none => .unclosedBracket b.span

/-- What every run of the layout pass over one text reads. -/
structure Input where
  file : ℕ
  source : Text
  /-- The open brackets this run closes before the first line that ends their statement. -/
  resync : List ℕ

/-- One run of the off-side rule over the raw tokens. -/
structure Layout where
  out : List Placed
  errors : List LexError
  /-- The innermost level, and the levels that enclose it. -/
  level : Level
  enclosing : List Level
  brackets : List OpenBracket
  resyncNext : List ℕ
  atLineStart : Bool
  /-- The first newline dropped inside brackets since the last token. -/
  droppedNewline : Option Span
  /-- Where the head of the line's last statement lands in `out`, with its offset. -/
  lineHead : ℕ × ℕ
  /-- The `BlockValueIndent`s to insert into `out`: the index each goes before and its offset. -/
  blockValueIndents : List (ℕ × ℕ)
  lineOpensAtFirstToken : Bool
  headNext : Bool
  headIsLineFirst : Bool
  lineShort : Bool
  shortHeader : Option ℕ
  lineIndent : ℕ

/-- Where a line starts, and the column of an offset on it. -/
def column (source : Text) (offset : ℕ) : ℕ × ℕ :=
  let width := ((source.take offset).reverse.takeWhile (· ≠ newlineByte)).length
  (offset - width, width)

namespace Layout

/-- Before the first token. -/
def initial : Layout where
  out := []
  errors := []
  level := .fixed 0
  enclosing := []
  brackets := []
  resyncNext := []
  atLineStart := true
  droppedNewline := none
  lineHead := (0, 0)
  blockValueIndents := []
  lineOpensAtFirstToken := false
  headNext := false
  headIsLineFirst := false
  lineShort := false
  shortHeader := none
  lineIndent := 0

/-- The token starts a statement, or is the `pub` or `const` before one. -/
def statementHead (tok : Token) (span : Span) (s : Layout) : Layout := { s with
    lineHead := (s.out.length, span.start)
    lineOpensAtFirstToken :=
      if s.headIsLineFirst then opensBlockAtLineStart tok else s.lineOpensAtFirstToken
    headNext := tok == .keyword .pub || tok == .keyword .const }

/-- The levels a line at `indent` closes, their closers put at `at_`. -/
def closeLevels (indent : ℕ) (at_ : Span) :
    Level → List Level → List Placed → Level × List Level × List Placed
  | top, [], out => (top, [], out)
  | top, below :: rest, out =>
    if top.closesAt indent && !(top.isFixed && below.strands indent) then
      closeLevels indent at_ below rest (out ++ [(top.closer, at_)])
    else (top, below :: rest, out)

/-- A line that opens no block: it closes levels, and its column is read against what is left. -/
def returnTo (indent : ℕ) (span : Span) (s : Layout) : Layout :=
  let (level, enclosing, out) :=
    closeLevels indent (.at_ span.file span.start) s.level s.enclosing s.out
  let s := { s with level := level, enclosing := enclosing, out := out }
  match level with
  | .pending _ => { s with level := .pinned indent }
  | .fixed c | .pinned c =>
    if c = indent then s
    else { s with lineShort := c > indent, errors := s.errors ++ [.inconsistentIndent span] }

/-- The first token of a logical line: open or close indentation levels. -/
def lineStart (source : Text) (tok : Token) (span : Span) (s : Layout) : Layout :=
  let (start, indent) := column source span.start
  let current := match s.shortHeader with
    | some col => min col s.level.floor
    | none => s.level.floor
  let s := { s with lineIndent := indent, lineShort := false, shortHeader := none }
  let s :=
    if indent > current then
      { s with
        level := .fixed indent
        enclosing := s.level :: s.enclosing
        out := s.out ++ [(.indent, ⟨span.file, start, span.start⟩)] }
    else s.returnTo indent span
  statementHead tok span { s with headIsLineFirst := true }

/-- A `Newline` outside brackets: the logical line ends. -/
def endLine (span : Span) (s : Layout) : Layout :=
  let opensBlock := s.out.getLast?.any fun t => t.1 == .colon
  let s :=
    if opensBlock && !s.lineOpensAtFirstToken then
      { s with
        level := .pending s.lineIndent
        enclosing := s.level :: s.enclosing
        blockValueIndents := s.blockValueIndents ++ [s.lineHead] }
    else s
  { s with
    shortHeader := if opensBlock && s.lineShort then some s.lineIndent else s.shortHeader
    out := s.out ++ [(.newline, span)]
    atLineStart := true }

/-- Every open bracket, up to one that knows it already, learns that its statement ended. -/
def markEnded : List OpenBracket → List OpenBracket
  | [] => []
  | b :: rest => if b.statementEnded then b :: rest else { b with statementEnded := true } ::
      markEnded rest

/-- A bracket closed by a zero-width closer. -/
def closeUnclosed (at_ : Span) (b : OpenBracket) (s : Layout) : Layout := { s with
    out := s.out ++ [(b.kind.closeToken, at_)]
    errors := s.errors ++ [b.neverClosed] }

/-- The innermost brackets that close early. -/
def closeEarly (at_ : Span) : List OpenBracket → Layout → Layout
  | [], s => { s with brackets := [] }
  | b :: rest, s =>
    if b.closesEarly then closeEarly at_ rest (s.closeUnclosed at_ b)
    else { s with brackets := b :: rest }

/-- The token starts a physical line inside brackets, after `newline`. -/
def physicalLine (source : Text) (tok : Token) (span newline : Span) (s : Layout) : Layout :=
  if (column source span.start).2 > s.lineIndent || (Bracket.closedBy tok).isSome then s
  else
    let s := closeEarly (.at_ newline.file newline.start) (markEnded s.brackets) s
    if s.brackets.isEmpty then s.endLine newline else s

/-- The innermost of the brackets a closer closes over meets it. -/
def meetStray (kind : Bracket) (span : Span) : List OpenBracket → List OpenBracket
  | [] => []
  | b :: rest => { b with stray := some (b.stray.getD (kind, span)) } :: rest

/-- A close bracket that matches no open one: kept by the innermost bracket, or reported. -/
def strayClose (kind : Bracket) (span : Span) (s : Layout) : Layout :=
  match s.brackets with
  | b :: rest =>
    if b.stray.isNone then { s with brackets := { b with stray := some (kind, span) } :: rest }
    else { s with errors := s.errors ++ [.unmatchedClose span] }
  | [] => { s with errors := s.errors ++ [.unmatchedClose span] }

/-- A close bracket of kind `kind`. -/
def close (kind : Bracket) (span : Span) (s : Layout) : Layout :=
  let inner := s.brackets.takeWhile fun b => b.kind != kind
  match s.brackets.dropWhile fun b => b.kind != kind with
  | [] => s.strayClose kind span
  | matched :: outer =>
    let closed := (meetStray kind span inner).foldl
      (fun s b => s.closeUnclosed (.at_ span.file span.start) b) s
    { closed with
      brackets := outer
      resyncNext :=
        if !inner.isEmpty && matched.statementEnded then closed.resyncNext ++ [matched.index]
        else closed.resyncNext
      errors := match matched.stray with
        | some (_, stray) => closed.errors ++ [.unmatchedClose stray]
        | none => closed.errors
      out := closed.out ++ [(kind.closeToken, span)] }

/-- The token takes its place in the stream. -/
def place (resync : List ℕ) (index : ℕ) (tok : Token) (span : Span) (s : Layout) : Layout :=
  match Bracket.openedBy tok, Bracket.closedBy tok with
  | some kind, _ =>
    { s with
      brackets := ⟨kind, span, index, resync.contains index, false, none⟩ :: s.brackets
      out := s.out ++ [(tok, span)] }
  | none, some kind => s.close kind span
  | none, none =>
    if tok = .newline then
      if s.brackets.isEmpty then s.endLine span
      else { s with droppedNewline := some (s.droppedNewline.getD span) }
    else if tok = .semi ∧ s.brackets.isEmpty then
      { s with out := s.out ++ [(tok, span)], headNext := true, headIsLineFirst := false }
    else { s with out := s.out ++ [(tok, span)] }

/-- A newline dropped inside brackets, once a token follows it. -/
def resume (source : Text) (tok : Token) (span : Span) (s : Layout) : Layout :=
  match s.droppedNewline with
  | some newline =>
    if tok = .newline then s
    else physicalLine source tok span newline { s with droppedNewline := none }
  | none => s

/-- The line's first token, or a statement's head on it. -/
def head (source : Text) (tok : Token) (span : Span) (s : Layout) : Layout :=
  if s.atLineStart && s.brackets.isEmpty then s.lineStart source tok span
  else if s.headNext && tok != .newline then s.statementHead tok span
  else s

/-- One raw token. -/
def token (input : Input) (s : Layout) (index : ℕ) (tok : Token) (span : Span) : Layout :=
  if s.atLineStart && tok == .newline then s
  else
    let s := (s.resume input.source tok span).head input.source tok span
    place input.resync index tok span { s with atLineStart := false }

/-- The closers of every level but the outermost. -/
def levelClosers (at_ : Span) : Level → List Level → List Placed
  | _, [] => []
  | top, below :: rest => (top.closer, at_) :: levelClosers at_ below rest

/-- `out` from index `i` on, with the openers put before the tokens they name. -/
def weave (file : ℕ) : ℕ → List (ℕ × ℕ) → List Placed → List Placed
  | _, _, [] => []
  | i, openers, t :: out =>
    (openers.takeWhile fun o => o.1 == i).map (fun o => (.blockValueIndent, .at_ file o.2)) ++
      t :: weave file (i + 1) (openers.dropWhile fun o => o.1 == i) out

/-- End of input: close what is open, end the last line, and dedent back to column zero. -/
def finish (input : Input) (s : Layout) : Layout :=
  let end_ := Span.at_ input.file input.source.length
  let s := s.brackets.foldl
    (fun s b => { s.closeUnclosed end_ b with resyncNext := s.resyncNext ++ [b.index] })
    { s with brackets := [] }
  let out := if s.out.getLast?.any fun t => t.1 == .newline then s.out else s.out ++
    [(.newline, end_)]
  let out := out ++ levelClosers end_ s.level s.enclosing
  { s with
    out := weave input.file 0 s.blockValueIndents out
    level := s.enclosing.getLast?.getD s.level
    enclosing := [] }

/-- A run over the raw tokens. -/
def run (input : Input) (raw : List Placed) : Layout :=
  (raw.zipIdx.foldl (fun s t => s.token input t.2 t.1.1 t.1.2) initial).finish input

end Layout

/-- A token stream and the lexical errors found producing it, in source order. -/
structure Lexed where
  tokens : List Placed
  errors : List LexError

/-- The raw tokens the layout pass runs over: all but the detached backticks. -/
def RawTokens.attached (raw : RawTokens) : List Placed :=
  (raw.tokens.zipIdx.filter fun t => !raw.detached.contains t.2).map (·.1)

/-- The layout of a text: a second run where the first finds a bracket that stays open past the end
of its statement. -/
def layOut (file : ℕ) (source : Text) (tokens : List Placed) : Layout :=
  let first := Layout.run ⟨file, source, []⟩ tokens
  if first.resyncNext.isEmpty then first
  else Layout.run ⟨file, source, (first.resyncNext.mergeSort (· ≤ ·)).dedup⟩ tokens

/-- Tokenise `source` into a layout-resolved token stream, with every lexical error. -/
def tokenize (file : ℕ) {source : Text} (lexer : Lexer source) : Lexed :=
  let raw := rawTokens file lexer
  let laid := layOut file source raw.attached
  ⟨laid.out, sortErrors (raw.errors ++ laid.errors)⟩

end Cambra.Chl
