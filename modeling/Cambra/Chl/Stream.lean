import Cambra.Chl.Lexer
import Cambra.Lib.Nesting
import Mathlib.Data.List.Infix

/-!
# The stream the parser is handed

What the parser relies on, stated over a raw token list, a stream and the errors reported with it
(`WellLaid`): how the stream ends, that its blocks and brackets nest (`layoutPairing`), what became
of every raw token (`Reads`), and which error stands for which closer the source does not have.

`Reads` follows the raw tokens in order.  Each is put into the stream with its span or dropped for
one of three reasons; what the layout pass puts in of its own covers no byte, or is an `Indent`,
whose span is the line's indentation.
-/

namespace Cambra.Chl

open List

/-! ## Pairs -/

/-- The pairs of the stream. -/
inductive Pair where
  | block
  | blockValue
  | bracket (kind : Bracket)
deriving DecidableEq

/-- The pair is a bracket's. -/
def Pair.isBracket : Pair → Bool
  | .bracket _ => true
  | _ => false

variable {t : Token} {a b : List Placed} {x : Placed}

namespace Bracket

/-- The token that opens this kind of bracket. -/
def openToken : Bracket → Token
  | .paren => .lParen
  | .square => .lBracket
  | .brace => .lBrace

variable {k : Bracket}

lemma openedBy_eq_some : openedBy t = some k ↔ t = k.openToken := by
  cases t <;> cases k <;> simp [openedBy, openToken]

lemma closedBy_eq_some : closedBy t = some k ↔ t = k.closeToken := by
  cases t <;> cases k <;> simp [closedBy, closeToken]

@[simp] lemma openedBy_openToken (k : Bracket) : openedBy k.openToken = some k :=
  openedBy_eq_some.mpr rfl

@[simp] lemma closedBy_closeToken (k : Bracket) : closedBy k.closeToken = some k :=
  closedBy_eq_some.mpr rfl

@[simp] lemma openedBy_closeToken (k : Bracket) : openedBy k.closeToken = none := by cases k <;> rfl

end Bracket

/-- A token of the lines a text is laid out in: a newline, or one that opens or closes a block. -/
def Token.isLayout (t : Token) : Bool := t == .newline || t.isIndentation

/-- Blocks, block values and brackets, and no newline or indentation inside a bracket pair. -/
def layoutPairing : Pairing Placed Pair where
  opens t := match t.1 with
    | .indent => some .block
    | .blockValueIndent => some .blockValue
    | t => (Bracket.openedBy t).map .bracket
  closes t := match t.1 with
    | .dedent => some .block
    | .blockValueDedent => some .blockValue
    | t => (Bracket.closedBy t).map .bracket
  admits ctx t := !t.1.isLayout || ctx.all fun k => !k.isBracket
  opens_eq_none := by
    rintro ⟨t, sp⟩ k h
    cases t <;> simp_all [Bracket.closedBy, Bracket.openedBy]

/-- Brackets alone. -/
def bracketPairing : Pairing Placed Bracket where
  opens t := Bracket.openedBy t.1
  closes t := Bracket.closedBy t.1
  admits _ _ := true
  opens_eq_none := by
    rintro ⟨t, sp⟩ k h
    obtain rfl := Bracket.closedBy_eq_some.mp h
    exact Bracket.openedBy_closeToken k

/-- The open brackets a stream leaves open, innermost first. -/
def openBrackets (out : List Placed) : List Placed := (bracketPairing.matching out).1

/-- The bracket pairs of a stream, in the order of their closers. -/
def bracketPairs (out : List Placed) : List (Placed × Placed) := (bracketPairing.matching out).2

/-- The token neither opens nor closes a bracket. -/
def Token.isBracket (t : Token) : Bool := (Bracket.openedBy t).isSome || (Bracket.closedBy t).isSome

lemma not_isBracket_iff :
    t.isBracket = false ↔ Bracket.openedBy t = none ∧ Bracket.closedBy t = none := by
  simp [Token.isBracket]

lemma not_isBracket_of_isLayout (h : t.isLayout = true) : t.isBracket = false := by
  cases t <;> simp_all [Token.isLayout, Token.isIndentation, Token.isBracket, Bracket.openedBy,
    Bracket.closedBy]

/-- A token of no bracket, put anywhere, leaves the brackets as they are. -/
lemma matching_insert (hx : x.1.isBracket = false) :
    bracketPairing.matching (a ++ x :: b) = bracketPairing.matching (a ++ b) := by
  have hfilter : ∀ ts : List Placed, bracketPairing.matching (ts.filter fun t => t.1.isBracket) =
      bracketPairing.matching ts := fun ts =>
    Pairing.matching_filter fun t _ ht => not_isBracket_iff.mp ht
  rw [← hfilter, ← hfilter (a ++ b)]
  simp [hx]

lemma openBrackets_insert (hx : x.1.isBracket = false) :
    openBrackets (a ++ x :: b) = openBrackets (a ++ b) := by
  rw [openBrackets, openBrackets, matching_insert hx]

/-! ## What became of the raw tokens -/

/-- The token is the source's own: it covers bytes, and is no `Indent`. -/
def significant (t : Placed) : Bool := !t.2.isEmpty && t.1 != .indent

/-- A newline here would end a line no token stands on. -/
def blankAfter (done : List Placed) : Bool := done.getLast?.all fun t => t.1 == .newline

/-- **The stream is the raw tokens, read in order.**  Each is kept with its span, or it is a newline
of a blank line or inside a bracket pair, or a close bracket that `R` accounts for; what else stands
in the stream is not significant. -/
inductive Reads (R : Span → Prop) : List Placed → List Placed → Prop
  | nil : Reads R [] []
  | keep {done out : List Placed} {t : Placed} (h : Reads R done out) (hsig : significant t = true)
      (hnl : t.1 = .newline → blankAfter done = false) : Reads R (done ++ [t]) (out ++ [t])
  | blank {done out : List Placed} {span : Span} (h : Reads R done out)
      (hb : blankAfter done = true) : Reads R (done ++ [(.newline, span)]) out
  | interior {done out : List Placed} {span : Span} (h : Reads R done out)
      (hb : openBrackets out ≠ []) : Reads R (done ++ [(.newline, span)]) out
  | close {done out : List Placed} {t : Placed} (h : Reads R done out)
      (hc : (Bracket.closedBy t.1).isSome) (hR : R t.2) : Reads R (done ++ [t]) out
  | insert {done out : List Placed} {x : Placed} (h : Reads R done out)
      (hx : significant x = false) : Reads R done (out ++ [x])

namespace Reads

variable {R S : Span → Prop} {done out : List Placed}

lemma mono (hRS : ∀ span, R span → S span) (h : Reads R done out) : Reads S done out := by
  induction h with
  | nil => exact .nil
  | keep _ hsig hnl ih => exact .keep ih hsig hnl
  | blank _ hb ih => exact .blank ih hb
  | interior _ hb ih => exact .interior ih hb
  | close _ hc hR ih => exact .close ih hc (hRS _ hR)
  | insert _ hx ih => exact .insert ih hx

/-- A token of the layout pass may be put in after the fact. -/
lemma insert_anywhere (hx : significant x = false) (hbr : x.1.isBracket = false)
    (h : Reads R done (a ++ b)) : Reads R done (a ++ x :: b) := by
  generalize hout : a ++ b = out at h
  induction h generalizing b with
  | nil =>
    obtain ⟨rfl, rfl⟩ := append_eq_nil_iff.mp hout
    exact Reads.nil.insert hx
  | @keep done out t h hsig hnl ih =>
    rcases eq_nil_or_concat b with rfl | ⟨b', t', rfl⟩
    · rw [append_nil] at hout
      subst hout
      exact (h.keep hsig hnl).insert hx
    · rw [concat_eq_append, ← append_assoc] at hout
      obtain ⟨rfl, ht⟩ := append_inj' hout rfl
      obtain rfl := singleton_inj.mp ht
      simpa using (ih rfl).keep hsig hnl
  | blank _ hb ih => exact (ih hout).blank hb
  | interior _ hb ih =>
    subst hout
    exact (ih rfl).interior (by rwa [openBrackets_insert hbr])
  | close _ hc hR ih => exact (ih hout).close hc hR
  | @insert done out y h hy ih =>
    rcases eq_nil_or_concat b with rfl | ⟨b', y', rfl⟩
    · rw [append_nil] at hout
      subst hout
      exact (h.insert hy).insert hx
    · rw [concat_eq_append, ← append_assoc] at hout
      obtain ⟨rfl, hyy⟩ := append_inj' hout rfl
      obtain rfl := singleton_inj.mp hyy
      simpa using (ih rfl).insert hy

end Reads

/-! ## Errors -/

namespace LexError

/-- The close bracket the error reports. -/
def reported : LexError → Option Span
  | .unmatchedClose span | .mismatchedClose span _ _ _ => some span
  | _ => none

/-- The open bracket the error says is never closed. -/
def unclosed : LexError → Option Span
  | .mismatchedClose _ _ opening _ | .unclosedBracket opening => some opening
  | _ => none

end LexError

/-- The token closes a block. -/
def Token.isBlockCloser : Token → Bool
  | .dedent | .blockValueDedent => true
  | _ => false

/-- **A well-laid stream** for a list of raw tokens, with the errors reported. -/
structure WellLaid (raw out : List Placed) (errors : List LexError) : Prop where
  /-- The stream ends with a newline and then closes blocks only. -/
  ends : ∃ body span closers, out = body ++ (.newline, span) :: closers ∧
    ∀ t ∈ closers, t.1.isBlockCloser = true
  /-- Blocks, block values and brackets nest, with no newline or indentation inside a bracket. -/
  nests : layoutPairing.Nested [] out
  /-- Every raw token is kept in its place, or dropped for a reason; a dropped close bracket is
  reported in exactly one error. -/
  reads : Reads (fun span => (errors.filterMap LexError.reported).count span = 1) raw out
  /-- Every close bracket has its partner, of its kind. -/
  partners : out.filter (fun t => (Bracket.closedBy t.1).isSome) = (bracketPairs out).map (·.2) ∧
    ∀ p ∈ bracketPairs out, Bracket.openedBy p.1.1 = Bracket.closedBy p.2.1
  /-- The closers that cover no byte stand for the errors of brackets never closed, one to one: each
  closes the open bracket its error names. -/
  closers : ((bracketPairs out).filter fun p => p.2.2.isEmpty).map (·.1.2) |>.Perm
    (errors.filterMap LexError.unclosed)

end Cambra.Chl
