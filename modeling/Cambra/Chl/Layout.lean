import Cambra.Chl.Lines

/-!
# A run of the layout pass

Every token step keeps an invariant (`Inv`), and the end of the text turns it into a well-laid
stream (`run_wellLaid`), whatever brackets the run was asked to close early.  So the first run and
the one that resynchronises unclosed brackets are covered alike.

Between tokens a run is at the start of a line (`Rested`) or inside one (`Running`).  Inside one it
may hold back newlines it met inside brackets: they are dropped if the line goes on, and the first
of them ends the line if the brackets close early.
-/

namespace Cambra.Chl.Layout

open List

/-! ## Brackets and their closers -/

/-- The stream's open brackets are the stack's, and every closer it put in of its own has its
error. -/
structure Matched (stack : List OpenBracket) (out : List Placed) (errors : List LexError) :
    Prop where
  opens : openBrackets out = stack.map fun b => (b.kind.openToken, b.span)
  closers : out.filter (fun t => (Bracket.closedBy t.1).isSome) = (bracketPairs out).map (·.2)
  kinds : ∀ p ∈ bracketPairs out, Bracket.openedBy p.1.1 = Bracket.closedBy p.2.1
  errors : ((bracketPairs out).filter fun p => p.2.2.isEmpty).map (·.1.2) =
    errors.filterMap LexError.unclosed

variable {b : OpenBracket} {e : LexError} {span nl : Span} {stack' inner stack : List OpenBracket}
  {t : Placed} {errors : List LexError} {R : Span → Prop} {done out xs : List Placed} {tok : Token}
  {α : Type*} {file : ℕ} {spans : List Span} {s : Layout}

namespace Matched

lemma matching_concat_plain (ht : t.1.isBracket = false) :
    bracketPairing.matching (out ++ [t]) = bracketPairing.matching out := by
  simpa using matching_insert (a := out) (b := []) ht

section Keep

variable (h : Matched stack out errors)

include h

lemma plain (ht : t.1.isBracket = false) : Matched stack (out ++ [t]) errors := by
  have hpairs : bracketPairs (out ++ [t]) = bracketPairs out := by
    rw [bracketPairs, matching_concat_plain ht, bracketPairs]
  refine ⟨?_, ?_, by rw [hpairs]; exact h.kinds, by rw [hpairs]; exact h.errors⟩
  · rw [openBrackets, matching_concat_plain ht]
    exact h.opens
  · rw [filter_append, hpairs, h.closers]
    simp [(not_isBracket_iff.mp ht).2]

/-- An error that is not about an unclosed bracket. -/
lemma error (he : e.unclosed = none) : Matched stack out (errors ++ [e]) :=
  { h with errors := by simpa [he] using h.errors }

/-- The stack matters by the kinds and places of its brackets only. -/
lemma congr (heq : stack'.map (fun b => (b.kind, b.span)) = stack.map fun b => (b.kind, b.span)) :
    Matched stack' out errors := by
  refine ⟨?_, h.closers, h.kinds, h.errors⟩
  have := congrArg (List.map fun x : Bracket × Span => (x.1.openToken, x.2)) heq
  rw [map_map, map_map] at this
  exact h.opens.trans this.symm

lemma push : Matched (b :: stack) (out ++ [(b.kind.openToken, b.span)]) errors := by
  have hmatch : bracketPairing.matching (out ++ [(b.kind.openToken, b.span)]) =
      ((b.kind.openToken, b.span) :: openBrackets out, bracketPairs out) := by
    rw [Pairing.matching_append_singleton]
    exact Pairing.matchStep_opens (k := b.kind) (Bracket.openedBy_openToken _)
  have hclosed : Bracket.closedBy b.kind.openToken = none := by cases b.kind <;> rfl
  have hpairs : bracketPairs (out ++ [(b.kind.openToken, b.span)]) = bracketPairs out := by
    rw [bracketPairs, hmatch]
  refine ⟨by rw [openBrackets, hmatch, h.opens]; rfl, ?_, by rw [hpairs]; exact h.kinds,
    by rw [hpairs]; exact h.errors⟩
  rw [filter_append, hpairs, h.closers]
  simp [hclosed]

end Keep

variable (h : Matched (b :: stack) out errors)

include h

lemma pairs_close (span : Span) : openBrackets (out ++ [(b.kind.closeToken, span)]) =
        stack.map (fun b => (b.kind.openToken, b.span)) ∧
      bracketPairs (out ++ [(b.kind.closeToken, span)]) =
        bracketPairs out ++ [((b.kind.openToken, b.span), (b.kind.closeToken, span))] := by
  have hstate : bracketPairing.matching out = ((b.kind.openToken, b.span) ::
      stack.map (fun b => (b.kind.openToken, b.span)), bracketPairs out) :=
    Prod.ext h.opens rfl
  have hmatch : bracketPairing.matchStep (bracketPairing.matching out) (b.kind.closeToken, span) =
      (stack.map (fun b => (b.kind.openToken, b.span)),
        bracketPairs out ++ [((b.kind.openToken, b.span), (b.kind.closeToken, span))]) := by
    rw [hstate]
    exact Pairing.matchStep_closes (k := b.kind) (Bracket.closedBy_closeToken _)
  rw [← Pairing.matching_append_singleton] at hmatch
  exact ⟨by rw [openBrackets, hmatch], by rw [bracketPairs, hmatch]⟩

lemma of_pairs_close {errors' : List LexError} (herr : errors'.filterMap LexError.unclosed =
      errors.filterMap LexError.unclosed ++ if span.isEmpty then [b.span] else []) :
    Matched stack (out ++ [(b.kind.closeToken, span)]) errors' := by
  obtain ⟨hopens, hpairs⟩ := h.pairs_close span
  refine ⟨hopens, ?_, ?_, ?_⟩
  · rw [hpairs, filter_append, h.closers]
    simp
  · rw [hpairs]
    intro p hp
    rcases mem_append.mp hp with hp | hp
    · exact h.kinds p hp
    · obtain rfl := mem_singleton.mp hp
      simp
  · rw [hpairs, herr, filter_append, map_append, h.errors]
    cases hspan : span.isEmpty <;> simp [hspan]

lemma close (hspan : span.isEmpty = false) :
    Matched stack (out ++ [(b.kind.closeToken, span)]) errors :=
  h.of_pairs_close (by simp [hspan])

lemma close_unclosed (hspan : span.isEmpty = true) :
    Matched stack (out ++ [(b.kind.closeToken, span)]) (errors ++ [b.neverClosed]) := by
  have hb : b.neverClosed.unclosed = some b.span := by
    rw [OpenBracket.neverClosed]
    split <;> rfl
  exact h.of_pairs_close (by simp [hspan, hb])

end Matched

/-! ## Close brackets and their errors -/

/-- The close brackets that are reported, or wait with an open bracket to be. -/
def account (errors : List LexError) (stack : List OpenBracket) : List Span :=
  errors.filterMap LexError.reported ++ stack.filterMap fun b => b.stray.map (·.2)

lemma account_neverClosed (errors : List LexError) (b : OpenBracket) (stack : List OpenBracket) :
    account (errors ++ [b.neverClosed]) stack = account errors (b :: stack) := by
  cases hb : b.stray <;> simp [account, OpenBracket.neverClosed, hb, LexError.reported]

lemma account_error (he : e.reported = none) (stack : List OpenBracket) :
    account (errors ++ [e]) stack = account errors stack := by simp [account, he]

/-- What a run has put out, with `stack` for its open brackets: `done` are the raw tokens it has
read, and `spans` the places of all it was given. -/
structure Holds (file : ℕ) (spans : List Span) (done : List Placed) (stack : List OpenBracket)
    (s : Layout) : Prop where
  line : InLine file (openLevels s.level s.enclosing) (stack.map fun b => .bracket b.kind)
    s.lineHead.1 s.blockValueIndents s.out
  matched : Matched stack s.out s.errors
  accounts : (account s.errors stack).Subperm spans
  reads : Reads (· ∈ account s.errors stack) done s.out

lemma closeToken_not_isLayout (k : Bracket) : k.closeToken.isLayout = false := by cases k <;> rfl

lemma significant_eq_false (h : t.2.isEmpty = true) : significant t = false := by
  simp [significant, h]

lemma step_close (kind : Bracket) (span : Span) (stack : List Pair) :
    layoutPairing.step (.bracket kind :: stack) (kind.closeToken, span) = some stack := by
  refine Pairing.step_closes ?_ (InLine.admits_of_not_isLayout (closeToken_not_isLayout kind) _)
  cases kind <;> rfl

lemma step_open (kind : Bracket) (span : Span) (stack : List Pair) :
    layoutPairing.step stack (kind.openToken, span) = some (.bracket kind :: stack) := by
  have hlayout : kind.openToken.isLayout = false := by cases kind <;> rfl
  refine Pairing.step_opens ?_ (InLine.admits_of_not_isLayout hlayout _)
  cases kind <;> rfl

namespace Holds

/-- The innermost bracket is closed by a closer of the layout pass. -/
lemma closeUnclosed (h : Holds file spans done (b :: stack) s) {at_ : Span}
    (hat : at_.isEmpty = true) : Holds file spans done stack (s.closeUnclosed at_ b) where
  line := h.line.push (closeToken_not_isLayout b.kind) (step_close _ _ _)
  matched := h.matched.close_unclosed hat
  accounts := by
    rw [Layout.closeUnclosed, account_neverClosed]
    exact h.accounts
  reads := by
    rw [Layout.closeUnclosed, account_neverClosed]
    exact h.reads.insert (significant_eq_false hat)

lemma closeAll (h : Holds file spans done (inner ++ stack) s) (at_ : Span)
    (hat : at_.isEmpty = true) :
    Holds file spans done stack (inner.foldl (fun s b => s.closeUnclosed at_ b) s) := by
  induction inner generalizing s with
  | nil => exact h
  | cons b inner ih => exact ih (h.closeUnclosed hat)

/-- The stack matters by the kinds, places and strays of its brackets. -/
lemma congr_stack (h : Holds file spans done stack s)
    (heq : stack'.map (fun b => (b.kind, b.span)) = stack.map fun b => (b.kind, b.span))
    (hacc : account s.errors stack' = account s.errors stack) :
    Holds file spans done stack' s where
  line := by
    have := congrArg (List.map fun x : Bracket × Span => Pair.bracket x.1) heq
    rw [map_map, map_map] at this
    exact Eq.mpr (congrArg (fun st => InLine _ _ st _ _ _) this) h.line
  matched := h.matched.congr heq
  accounts := hacc ▸ h.accounts
  reads := hacc ▸ h.reads

end Holds

/-! ## Between tokens -/

/-- The run is at the start of a line. -/
structure Rested (file : ℕ) (spans : List Span) (done : List Placed) (s : Layout) : Prop where
  brackets : s.brackets = []
  dropped : s.droppedNewline = none
  settled : Settled file (openLevels s.level s.enclosing) s.blockValueIndents s.out
  matched : Matched [] s.out s.errors
  accounts : (account s.errors []).Subperm spans
  reads : Reads (· ∈ account s.errors []) done s.out
  last : ∀ t, s.out.getLast? = some t → t.1.isLayout = true

/-- The run is inside a line. -/
structure Running (file : ℕ) (spans : List Span) (done : List Placed) (s : Layout) : Prop extends
    Holds file spans done s.brackets s where
  /-- A statement's head is waited for outside brackets only. -/
  headNext : s.headNext = true → s.brackets = []
  /-- A colon the stream ends in stands at or after the head of its statement. -/
  colon : ∀ t, s.out.getLast? = some t → t.1 = .colon →
    s.lineHead.1 < s.out.length ∧ s.headNext = false

lemma blankAfter_concat_newline (done : List Placed) (span : Span) :
    blankAfter (done ++ [(.newline, span)]) = true := by simp [blankAfter]

lemma blankAfter_concat (ht : t.1 ≠ .newline) (done : List Placed) :
    blankAfter (done ++ [t]) = false := by simp [blankAfter, ht]

/-- What each token keeps, tokens put in one after another keep. -/
lemma append_induction {P : List Placed → Prop} {Q : Placed → Prop} (h : P out)
    (hstep : ∀ out t, P out → Q t → P (out ++ [t])) (hxs : ∀ t ∈ xs, Q t) : P (out ++ xs) := by
  induction xs generalizing out with
  | nil => simpa using h
  | cons x xs ih =>
    obtain ⟨hx, hxs⟩ := forall_mem_cons.mp hxs
    simpa using ih (hstep out x h hx) hxs

lemma reads_blanks {more : List Placed} (h : Reads R done out) (hb : blankAfter done = true)
    (hmore : ∀ t ∈ more, t.1 = .newline) : Reads R (done ++ more) out := by
  refine (append_induction (P := fun done => Reads R done out ∧ blankAfter done = true) ⟨h, hb⟩
    ?_ hmore).1
  rintro done ⟨_, span⟩ ⟨h, hb⟩ rfl
  exact ⟨h.blank hb, blankAfter_concat_newline done span⟩

lemma reads_inserts (h : Reads R done out) (hxs : ∀ x ∈ xs, significant x = false) :
    Reads R done (out ++ xs) :=
  append_induction h (fun _ _ h => h.insert) hxs

lemma Matched.plains (h : Matched stack out errors) (hxs : ∀ x ∈ xs, x.1.isBracket = false) :
    Matched stack (out ++ xs) errors :=
  append_induction (P := (Matched stack · errors)) h (fun _ _ h => h.plain) hxs

/-! ## Ending a line -/

lemma newline_significant (hspan : span.isEmpty = false) : significant (.newline, span) = true := by
  simp [significant, hspan]

lemma Running.endLine (h : Running file spans done s) (hbr : s.brackets = [])
    (hdrop : s.droppedNewline = none) (hspan : span.isEmpty = false)
    (hblank : blankAfter done = false) :
    Rested file spans (done ++ [(.newline, span)]) (s.endLine span) := by
  have hline := h.line
  have hmatched := h.matched.plain (t := (.newline, span)) rfl
  have hacc := h.accounts
  have hreads := h.reads.keep (newline_significant hspan) fun _ => hblank
  rw [hbr] at hline hmatched hacc hreads
  have hlevels := openLevels_all s.level s.enclosing
  rw [Layout.endLine]
  split
  · rename_i hopens
    have hcolon : s.lineHead.1 < s.out.length := by
      simp only [Bool.and_eq_true] at hopens
      obtain ⟨t, ht, htok⟩ := Option.any_eq_true _ _ |>.mp hopens.1
      exact (h.colon t ht (by simpa using htok)).1
    refine ⟨hbr, hdrop, ?_, hmatched, hacc, hreads, by simp [Token.isLayout]⟩
    exact (hline.settle_open hcolon hlevels).push
      (step_newline (.pending s.lineIndent) (s.level :: s.enclosing) span)
  · refine ⟨hbr, hdrop, ?_, hmatched, hacc, hreads, by simp [Token.isLayout]⟩
    exact hline.settle.push (step_newline _ _ span)

/-! ## Starting a line -/

lemma closer_isBlockCloser (level : Level) : level.closer.isBlockCloser = true := by
  cases level <;> rfl

lemma isLayout_of_isBlockCloser {t : Token} (h : t.isBlockCloser = true) : t.isLayout = true := by
  cases t <;> simp_all [Token.isBlockCloser, Token.isLayout, Token.isIndentation]

lemma closeLevels_out (indent : ℕ) (at_ : Span) (top : Level) (enclosing : List Level)
    (out : List Placed) :
    ∃ closers, (closeLevels indent at_ top enclosing out).2.2 = out ++ closers ∧
      ∀ t ∈ closers, t.1.isBlockCloser = true ∧ t.2 = at_ := by
  induction enclosing generalizing top out with
  | nil => exact ⟨[], by simp [closeLevels], by simp⟩
  | cons below rest ih =>
    rw [closeLevels]
    split
    · obtain ⟨closers, hout, hall⟩ := ih below (out ++ [(top.closer, at_)])
      refine ⟨(top.closer, at_) :: closers, by simp [hout], fun t ht => ?_⟩
      rcases List.mem_cons.mp ht with rfl | ht
      · exact ⟨closer_isBlockCloser top, rfl⟩
      · exact hall t ht
    · exact ⟨[], by simp, by simp⟩

/-- Layout tokens that are not significant, put in at the start of a line. -/
lemma Rested.put (h : Rested file spans done s) {level : Level} {enclosing : List Level}
    (hsettled : Settled file (openLevels level enclosing) s.blockValueIndents (s.out ++ xs))
    (hxs : ∀ x ∈ xs, x.1.isLayout = true ∧ significant x = false) :
    Rested file spans done
      { s with level := level, enclosing := enclosing, out := s.out ++ xs } where
  __ := h
  settled := hsettled
  matched := h.matched.plains fun x hx => not_isBracket_of_isLayout (hxs x hx).1
  reads := reads_inserts h.reads fun x hx => (hxs x hx).2
  last := by
    intro t ht
    rcases eq_nil_or_concat xs with rfl | ⟨xs, x, rfl⟩
    · exact h.last t (by simpa using ht)
    · obtain rfl : x = t := by simpa using ht
      exact (hxs x (by simp)).1

/-- A line that opens no block. -/
lemma Rested.returnTo (h : Rested file spans done s) (indent : ℕ) (span : Span) :
    Rested file spans done (s.returnTo indent span) := by
  obtain ⟨closers, hout, hall⟩ :=
    closeLevels_out indent (.at_ span.file span.start) s.level s.enclosing s.out
  have hsettled := h.settled.closeLevels indent (.at_ span.file span.start)
  rw [hout] at hsettled
  have hput := h.put hsettled fun x hx => ⟨isLayout_of_isBlockCloser (hall x hx).1,
    significant_eq_false (by rw [(hall x hx).2]; simp)⟩
  rw [← hout] at hput
  rw [Layout.returnTo]
  generalize closeLevels indent (.at_ span.file span.start) s.level s.enclosing s.out = c at hput
  obtain ⟨level, enclosing, out⟩ := c
  have hfault : ∀ short, Rested file spans done { s with
      level := level, enclosing := enclosing, out := out, lineShort := short,
      errors := s.errors ++ [.inconsistentIndent span] } := fun short =>
    ⟨h.brackets, h.dropped, hput.settled, hput.matched.error rfl,
      by rw [account_error rfl]; exact h.accounts, by rw [account_error rfl]; exact hput.reads,
      hput.last⟩
  cases level with
  | pending min =>
    have hsettled := hput.settled
    refine { hput with settled := ?_ }
    cases enclosing <;> exact hsettled
  | fixed | pinned =>
    dsimp only
    split
    · exact hput
    · exact hfault _

lemma Rested.statementHead (h : Rested file spans done s) (tok : Token) (span : Span) :
    Running file spans done (s.statementHead tok span) where
  line := by
    rw [Layout.statementHead, h.brackets]
    exact h.settled.inLine
  matched := by
    rw [Layout.statementHead, h.brackets]
    exact h.matched
  accounts := by
    rw [Layout.statementHead, h.brackets]
    exact h.accounts
  reads := by
    rw [Layout.statementHead, h.brackets]
    exact h.reads
  headNext _ := h.brackets
  colon := by
    intro t ht htok
    have := h.last t ht
    simp [htok, Token.isLayout, Token.isIndentation] at this

lemma Rested.headIsLineFirst (h : Rested file spans done s) :
    Rested file spans done { s with headIsLineFirst := true } :=
  { h with }

lemma Rested.ite {s' : Layout} {c : Prop} [Decidable c] (h : Rested file spans done s)
    (h' : Rested file spans done s') : Rested file spans done (if c then s else s') := by
  split
  · exact h
  · exact h'

lemma Rested.lineStart (h : Rested file spans done s) (source : Text) (tok : Token) (span : Span) :
    Running file spans done (s.lineStart source tok span) := by
  rw [Layout.lineStart]
  generalize column source span.start = c
  obtain ⟨start, indent⟩ := c
  have hs : Rested file spans done { s with
      lineIndent := indent, lineShort := false, shortHeader := none } := { h with }
  have hindent := hs.put (hs.settled.push (step_indent s.level s.enclosing indent
    ⟨span.file, start, span.start⟩)) (by simp [Token.isLayout, Token.isIndentation, significant])
  have hreturn := hs.returnTo indent span
  exact (Rested.headIsLineFirst (.ite hindent hreturn)).statementHead tok span

lemma Running.statementHead (h : Running file spans done s) (hnext : s.headNext = true)
    (tok : Token) (span : Span) : Running file spans done (s.statementHead tok span) where
  __ := h
  line := by
    have hline := h.line
    rw [h.headNext hnext] at hline
    rw [Layout.statementHead, h.headNext hnext]
    exact hline.settle.inLine
  headNext _ := h.headNext hnext
  colon := by
    intro t ht htok
    have := (h.colon t ht htok).2
    simp [hnext] at this

/-! ## A line that goes on inside brackets -/

lemma markEnded_map {f : OpenBracket → α} (hf : ∀ b, f { b with statementEnded := true } = f b)
    (stack : List OpenBracket) : (markEnded stack).map f = stack.map f := by
  induction stack with
  | nil => rfl
  | cons b stack ih =>
    rw [markEnded]
    split
    · rfl
    · simp [hf, ih]

lemma account_markEnded (errors : List LexError) (stack : List OpenBracket) :
    account errors (markEnded stack) = account errors stack := by
  have h := congrArg (List.filterMap id)
    (markEnded_map (f := fun b : OpenBracket => b.stray.map (·.2)) (fun _ => rfl) stack)
  simpa [account, filterMap_map] using h

lemma Holds.closeEarly (h : Holds file spans done stack s) (at_ : Span) (hat : at_.isEmpty = true)
    (hnext : s.headNext = true → stack = []) (hcolon : ∀ t, s.out.getLast? = some t → t.1 = .colon →
      s.lineHead.1 < s.out.length ∧ s.headNext = false) :
    Running file spans done (closeEarly at_ stack s) := by
  induction stack generalizing s with
  | nil => exact { h with headNext := fun _ => rfl, colon := hcolon }
  | cons b stack ih =>
    rw [Layout.closeEarly]
    split
    · refine ih (h.closeUnclosed hat) (fun hn => by simpa using hnext hn) fun t ht htok => ?_
      obtain rfl : (b.kind.closeToken, at_) = t := by simpa [Layout.closeUnclosed] using ht
      cases hk : b.kind <;> simp [hk, Bracket.closeToken] at htok
    · exact { h with headNext := hnext, colon := hcolon }

lemma closeEarly_frame (at_ : Span) (stack : List OpenBracket) (s : Layout) :
    (Layout.closeEarly at_ stack s).droppedNewline = s.droppedNewline ∧
      (Layout.closeEarly at_ stack s).atLineStart = s.atLineStart := by
  induction stack generalizing s with
  | nil => exact ⟨rfl, rfl⟩
  | cons b stack ih =>
    rw [Layout.closeEarly]
    split
    · exact ih _
    · exact ⟨rfl, rfl⟩

/-- A token can follow: at the start of a line, or inside one with no newline held back. -/
def Ready (file : ℕ) (spans : List Span) (done : List Placed) (s : Layout) : Prop :=
  (s.atLineStart = true ∧ Rested file spans done s) ∨
    (s.atLineStart = false ∧ s.droppedNewline = none ∧ Running file spans done s)

/-- The newlines held back inside a bracket are dropped with it open. -/
lemma Running.dropNewlines {more : List Placed} (h : Running file spans done s)
    (hbr : s.brackets ≠ []) (hmore : ∀ t ∈ more, t.1 = .newline) :
    Running file spans (done ++ (.newline, nl) :: more) s := by
  have hopen : openBrackets s.out ≠ [] := by
    rw [h.matched.opens]
    simpa using hbr
  have hfirst : Reads _ (done ++ [(.newline, nl)]) s.out := h.reads.interior hopen
  have hreads := reads_blanks hfirst (blankAfter_concat_newline _ nl) hmore
  exact { h with reads := by simpa using hreads }

/-- A token after newlines held back inside brackets. -/
lemma Running.physicalLine {more : List Placed} (h : Running file spans done s)
    (hat : s.atLineStart = false) (hdrop : s.droppedNewline = none) (hbr : s.brackets ≠ [])
    (hnl : nl.isEmpty = false) (hblank : blankAfter done = false)
    (hmore : ∀ t ∈ more, t.1 = .newline) (source : Text) (tok : Token) (span : Span) :
    Ready file spans (done ++ (.newline, nl) :: more) (s.physicalLine source tok span nl) := by
  rw [Layout.physicalLine]
  split
  · exact .inr ⟨hat, hdrop, h.dropNewlines hbr hmore⟩
  have hmark : Holds file spans done (markEnded s.brackets) s :=
    h.toHolds.congr_stack (markEnded_map (fun _ => rfl) _) (account_markEnded _ _)
  have hclosed := hmark.closeEarly (.at_ nl.file nl.start) (by simp)
    (fun hn => by rw [h.headNext hn]; rfl) h.colon
  obtain ⟨hdrop', hat'⟩ := closeEarly_frame (.at_ nl.file nl.start) (markEnded s.brackets) s
  rw [hdrop] at hdrop'
  rw [hat] at hat'
  dsimp only
  split
  · rename_i hempty
    have hrested := hclosed.endLine (List.isEmpty_iff.mp hempty) hdrop' hnl hblank
    refine .inl ⟨rfl, { hrested with reads := ?_ }⟩
    simpa using reads_blanks hrested.reads (blankAfter_concat_newline _ nl) hmore
  · rename_i hempty
    exact .inr ⟨hat', hdrop', hclosed.dropNewlines (by simpa using hempty) hmore⟩

lemma returnTo_dropped (indent : ℕ) (span : Span) (s : Layout) :
    (s.returnTo indent span).droppedNewline = s.droppedNewline := by
  rw [Layout.returnTo]
  generalize closeLevels indent (.at_ span.file span.start) s.level s.enclosing s.out = c
  obtain ⟨level, enclosing, out⟩ := c
  cases level with
  | pending min => rfl
  | fixed | pinned =>
    dsimp only
    split <;> rfl

lemma lineStart_dropped (source : Text) (tok : Token) (span : Span) (s : Layout) :
    (s.lineStart source tok span).droppedNewline = s.droppedNewline := by
  simp only [Layout.lineStart, Layout.statementHead]
  split <;> split
  any_goals rfl
  all_goals rw [returnTo_dropped]

/-- The token marks the statement after it, so that a head is still waited for. -/
def marksStatement (tok : Token) : Bool := tok == .keyword .pub || tok == .keyword .const

/-- The line's first token, or a statement's head on it. -/
lemma Ready.head (h : Ready file spans done s) (source : Text) (htok : tok ≠ .newline)
    (span : Span) : Running file spans done (s.head source tok span) ∧
      (s.head source tok span).droppedNewline = none ∧
      ((s.head source tok span).headNext = true → marksStatement tok = true) := by
  rw [Layout.head]
  rcases h with ⟨hat, hrested⟩ | ⟨hat, hdrop, hrunning⟩
  · rw [if_pos (by simp [hat, hrested.brackets])]
    exact ⟨hrested.lineStart source tok span, by rw [lineStart_dropped, hrested.dropped], id⟩
  rw [if_neg (by simp [hat])]
  split
  · rename_i hnext
    simp only [Bool.and_eq_true] at hnext
    exact ⟨hrunning.statementHead hnext.1 tok span, hdrop, id⟩
  · rename_i hnext
    refine ⟨hrunning, hdrop, fun hhead => absurd ?_ hnext⟩
    simp [hhead, htok]

/-! ## A close bracket -/

lemma subperm_concat {l : List Span} (h : l.Subperm spans) (span : Span) :
    l.Subperm (spans ++ [span]) ∧ (span :: l).Subperm (spans ++ [span]) :=
  ⟨h.trans (sublist_append_left _ _).subperm,
    ((subperm_cons span).mpr h).trans (perm_append_singleton span spans).symm.subperm⟩

lemma meetStray_map {f : OpenBracket → α} (hf : ∀ b x, f { b with stray := x } = f b)
    (kind : Bracket) (span : Span) (inner rest : List OpenBracket) :
    (meetStray kind span inner ++ rest).map f = (inner ++ rest).map f := by
  cases inner with
  | nil => rfl
  | cons b inner => simp [meetStray, hf]

/-- The bracket that meets a closer takes it into account, unless it has met one before. -/
lemma account_meetStray (errors : List LexError) (kind : Bracket) (span : Span)
    (inner rest : List OpenBracket) :
    account errors (meetStray kind span inner ++ rest) = account errors (inner ++ rest) ∨
      (account errors (meetStray kind span inner ++ rest)).Perm
        (span :: account errors (inner ++ rest)) := by
  cases inner with
  | nil => exact .inl rfl
  | cons b inner =>
    cases hb : b.stray with
    | some x => exact .inl (by simp [account, meetStray, hb])
    | none =>
      refine .inr ?_
      simp only [account, meetStray, hb, Option.getD_none, cons_append, filterMap_cons,
        Option.map_some, Option.map_none]
      exact perm_middle

/-- A close bracket meets the innermost of the brackets it closes over. -/
lemma Holds.meet {rest : List OpenBracket} (h : Holds file spans done (inner ++ rest) s)
    (kind : Bracket) (span : Span) :
    Holds file (spans ++ [span]) done (meetStray kind span inner ++ rest) s := by
  have hmap := meetStray_map (f := fun b => (b.kind, b.span)) (fun _ _ => rfl) kind span inner rest
  have hpairs := meetStray_map (f := fun b => Pair.bracket b.kind) (fun _ _ => rfl) kind span inner
    rest
  obtain ⟨hmore, hadd⟩ := subperm_concat h.accounts span
  have hline := h.line
  rw [← hpairs] at hline
  rcases account_meetStray s.errors kind span inner rest with hsame | hperm
  · exact ⟨hline, h.matched.congr hmap, by rwa [hsame], by simpa only [hsame] using h.reads⟩
  · refine ⟨hline, h.matched.congr hmap, hperm.subperm.trans hadd, h.reads.mono fun sp hsp => ?_⟩
    exact hperm.mem_iff.mpr (mem_cons_of_mem _ hsp)

/-- Closing brackets changes the stream and the errors only. -/
lemma foldl_closeUnclosed (at_ : Span) (inner : List OpenBracket) (s : Layout) :
    ∃ out errors, inner.foldl (fun s b => s.closeUnclosed at_ b) s =
      { s with out := out, errors := errors } := by
  induction inner generalizing s with
  | nil => exact ⟨s.out, s.errors, rfl⟩
  | cons b inner ih => exact ih _

/-- A close bracket that matches none is dropped, and taken into account. -/
lemma Running.strayClose (h : Running file spans done s) (kind : Bracket) (span : Span) :
    Running file (spans ++ [span]) (done ++ [(kind.closeToken, span)])
        (s.strayClose kind span) := by
  obtain ⟨hmore, hadd⟩ := subperm_concat h.accounts span
  have hreport : Running file (spans ++ [span]) (done ++ [(kind.closeToken, span)])
      { s with errors := s.errors ++ [.unmatchedClose span] } := by
    have hperm : (account (s.errors ++ [.unmatchedClose span]) s.brackets).Perm
        (span :: account s.errors s.brackets) := by
      simp only [account, filterMap_append, filterMap_cons, LexError.reported,
        filterMap_nil, append_assoc, singleton_append]
      exact perm_middle
    refine ⟨⟨h.line, h.matched.error rfl, hperm.subperm.trans hadd, ?_⟩, h.headNext, h.colon⟩
    refine (h.reads.mono fun sp hsp => hperm.mem_iff.mpr (mem_cons_of_mem _ hsp)).close
      (by simp) (hperm.mem_iff.mpr (by simp))
  rw [Layout.strayClose]
  split
  · rename_i b rest hbr
    split
    · rename_i hnone
      have hholds : Holds file spans done ([b] ++ rest) s := by
        have := h.toHolds
        rwa [hbr] at this
      have hmeet : Holds file (spans ++ [span]) done ({ b with stray := some (kind, span) } :: rest)
          s := by simpa [meetStray, Option.isNone_iff_eq_none.mp hnone] using hholds.meet kind span
      refine ⟨⟨hmeet.line, hmeet.matched, hmeet.accounts, ?_⟩, fun hn => ?_, h.colon⟩
      · exact hmeet.reads.close (by simp) (by simp [account])
      · simp [h.headNext hn] at hbr
    · exact hreport
  · exact hreport

lemma Running.close (h : Running file spans done s) (kind : Bracket)
    (hspan : span.isEmpty = false) :
    Running file (spans ++ [span]) (done ++ [(kind.closeToken, span)]) (s.close kind span) := by
  have hsplit := takeWhile_append_dropWhile (p := fun b : OpenBracket => b.kind != kind)
    (l := s.brackets)
  rw [Layout.close]
  dsimp only
  split
  · exact h.strayClose kind span
  rename_i matched outer hdrop
  rw [hdrop] at hsplit
  obtain rfl : matched.kind = kind := by
    have := head?_dropWhile_not (fun b : OpenBracket => b.kind != kind) s.brackets
    simpa [hdrop] using this
  have hmeet := (hsplit ▸ h.toHolds : Holds file spans done _ s).meet matched.kind span
  have hclosed := hmeet.closeAll (.at_ span.file span.start) (by simp)
  have hstack : s.headNext = true → False := fun hn => by simp [h.headNext hn] at hsplit
  obtain ⟨out, errors, hfold⟩ := foldl_closeUnclosed (.at_ span.file span.start)
    (meetStray matched.kind span (s.brackets.takeWhile fun b => b.kind != matched.kind)) s
  rw [hfold] at hclosed ⊢
  have hsig : significant (matched.kind.closeToken, span) = true := by
    cases matched.kind <;> simp [significant, hspan, Bracket.closeToken]
  have hnl : matched.kind.closeToken = .newline → blankAfter done = false := by
    cases matched.kind <;> simp [Bracket.closeToken]
  refine ⟨⟨?_, ?_, ?_, ?_⟩, fun hn => (hstack hn).elim, fun t ht htok => ?_⟩
  · exact hclosed.line.push (closeToken_not_isLayout _) (step_close _ _ _)
  · dsimp only
    split
    · exact (hclosed.matched.close hspan).error rfl
    · exact hclosed.matched.close hspan
  · have := hclosed.accounts
    dsimp only
    split <;> simp_all [account, LexError.reported]
  · have := hclosed.reads.keep hsig hnl
    dsimp only
    split <;> simp_all [account, LexError.reported]
  · obtain rfl : (matched.kind.closeToken, span) = t := by simpa using ht
    cases hk : matched.kind <;> simp [hk, Bracket.closeToken] at htok

/-! ## One token -/

/-- The token is one the source can have: it covers bytes, and the layout pass does not make it. -/
def Raw (t : Placed) : Prop := t.2.isEmpty = false ∧ t.1.isIndentation = false

lemma Raw.significant (h : Raw t) : significant t = true := by
  obtain ⟨tok, span⟩ := t
  obtain ⟨hspan, hind⟩ := h
  cases tok <;> simp_all [Chl.significant, Token.isIndentation]

/-- What a run keeps true while it holds newlines back. -/
def Held (s : Layout) (tail : List Placed) : Prop :=
  match s.droppedNewline with
  | none => tail = []
  | some nl => s.brackets ≠ [] ∧ nl.isEmpty = false ∧
      ∃ more, tail = (.newline, nl) :: more ∧ ∀ t ∈ more, t.1 = .newline

/-- **The invariant of a run** that has read `done`. -/
def Inv (file : ℕ) (done : List Placed) (s : Layout) : Prop :=
  (s.atLineStart = true ∧ blankAfter done = true ∧ Rested file (done.map (·.2)) done s) ∨
    (s.atLineStart = false ∧ ∃ prior tail, done = prior ++ tail ∧ blankAfter prior = false ∧
      Running file (done.map (·.2)) prior s ∧ Held s tail)

lemma inv_initial (file : ℕ) : Inv file [] initial := by
  refine .inl ⟨rfl, rfl, rfl, rfl, ⟨⟨.nil, by simp [initial]⟩, rfl⟩, ⟨rfl, rfl, ?_, rfl⟩,
    List.Subperm.refl _, .nil, by simp [initial]⟩
  intro p hp
  cases hp

variable {spans' : List Span} {tail : List Placed}

lemma Rested.more (h : Rested file spans done s) (hsub : spans.Subperm spans') :
    Rested file spans' done s :=
  { h with accounts := h.accounts.trans hsub }

lemma Running.more (h : Running file spans done s) (hsub : spans.Subperm spans') :
    Running file spans' done s :=
  { h with accounts := h.accounts.trans hsub }

lemma Running.inLine (h : Running file spans done s) :
    Running file spans done { s with atLineStart := false } :=
  { h with }

lemma Running.open_ (h : Running file spans done s) (hnext : s.headNext = false)
    (hraw : Raw (b.kind.openToken, b.span)) (hstray : b.stray = none) :
    Running file spans (done ++ [(b.kind.openToken, b.span)]) { s with
      brackets := b :: s.brackets, out := s.out ++ [(b.kind.openToken, b.span)] } := by
  have hlayout : b.kind.openToken.isLayout = false := by cases b.kind <;> rfl
  have hacc : account s.errors (b :: s.brackets) = account s.errors s.brackets := by
    simp [account, hstray]
  refine ⟨⟨h.line.push hlayout (step_open _ _ _), h.matched.push, ?_, ?_⟩, ?_, fun t ht htok => ?_⟩
  · rw [hacc]
    exact h.accounts
  · rw [hacc]
    refine h.reads.keep hraw.significant fun hnl => ?_
    cases hk : b.kind <;> simp [hk, Bracket.openToken] at hnl
  · simp [hnext]
  · obtain rfl : (b.kind.openToken, b.span) = t := by simpa using ht
    cases hk : b.kind <;> simp [hk, Bracket.openToken] at htok

lemma Running.plain (h : Running file spans done s) (hraw : Raw (tok, span)) (hnl : tok ≠ .newline)
    (hbr : tok.isBracket = false) (hnext : s.headNext = true → tok ≠ .colon) :
    Running file spans (done ++ [(tok, span)]) { s with out := s.out ++ [(tok, span)] } := by
  have hlayout : tok.isLayout = false := by simp [Token.isLayout, hnl, hraw.2]
  have hstep : ∀ stack, layoutPairing.step stack (tok, span) = some stack := by
    intro stack
    obtain ⟨ho, hc⟩ := not_isBracket_iff.mp hbr
    have hind := hraw.2
    refine Pairing.step_plain ?_ ?_ (InLine.admits_of_not_isLayout hlayout _)
    · cases tok <;> simp_all [layoutPairing, Token.isIndentation]
    · cases tok <;> simp_all [layoutPairing, Token.isIndentation]
  refine ⟨⟨h.line.push hlayout (hstep _), h.matched.plain hbr, h.accounts,
    h.reads.keep hraw.significant fun heq => absurd heq hnl⟩, h.headNext, fun t ht htok => ?_⟩
  have hle := h.line.head_le
  obtain rfl : (tok, span) = t := by simpa using ht
  refine ⟨by simp only [length_append, length_singleton]; omega, ?_⟩
  rw [← Bool.not_eq_true]
  exact fun hn => hnext hn htok

lemma Running.inv (h : Running file (done.map (·.2)) done s) (hat : s.atLineStart = false)
    (hdrop : s.droppedNewline = none) (hblank : blankAfter done = false) : Inv file done s :=
  .inr ⟨hat, done, [], by simp, hblank, h, by simp [Held, hdrop]⟩

lemma strayClose_frame (kind : Bracket) (span : Span) (s : Layout) :
    (s.strayClose kind span).droppedNewline = s.droppedNewline ∧
      (s.strayClose kind span).atLineStart = s.atLineStart := by
  rw [Layout.strayClose]
  split
  · split <;> exact ⟨rfl, rfl⟩
  · exact ⟨rfl, rfl⟩

lemma close_frame (kind : Bracket) (span : Span) (s : Layout) :
    (s.close kind span).droppedNewline = s.droppedNewline ∧
      (s.close kind span).atLineStart = s.atLineStart := by
  rw [Layout.close]
  dsimp only
  split
  · exact strayClose_frame kind span s
  · rename_i matched outer _
    obtain ⟨out, errors, hfold⟩ := foldl_closeUnclosed (.at_ span.file span.start)
      (meetStray kind span (s.brackets.takeWhile fun b => b.kind != kind)) s
    rw [hfold]
    exact ⟨rfl, rfl⟩

lemma subperm_spans (done : List Placed) (t : Placed) :
    (done.map (·.2)).Subperm ((done ++ [t]).map (·.2)) :=
  ((sublist_append_left _ _).map _).subperm

lemma Running.place (h : Running file (done.map (·.2)) done s) (hat : s.atLineStart = false)
    (hdrop : s.droppedNewline = none) (hraw : Raw (tok, span)) (hnl : tok ≠ .newline)
    (hnext : s.headNext = true → marksStatement tok = true) (resync : List ℕ) (index : ℕ) :
    Inv file (done ++ [(tok, span)]) (s.place resync index tok span) := by
  have hblank := blankAfter_concat (t := (tok, span)) hnl done
  have hmore := subperm_spans done (tok, span)
  rw [Layout.place]
  cases hopen : Bracket.openedBy tok with
  | some kind =>
    obtain rfl := Bracket.openedBy_eq_some.mp hopen
    have hheadNext : s.headNext = false := by
      rw [← Bool.not_eq_true]
      intro hn
      have := hnext hn
      cases kind <;> simp [marksStatement, Bracket.openToken] at this
    exact ((h.more hmore).open_ (b := ⟨kind, span, index, resync.contains index, false, none⟩)
      hheadNext hraw rfl).inv hat hdrop hblank
  | none =>
    cases hclose : Bracket.closedBy tok with
    | some kind =>
      obtain rfl := Bracket.closedBy_eq_some.mp hclose
      obtain ⟨hdrop', hat'⟩ := close_frame kind span s
      refine Running.inv ?_ (hat'.trans hat) (hdrop'.trans hdrop) hblank
      rw [map_append]
      exact h.close kind hraw.1
    | none =>
      have hbracket := not_isBracket_iff.mpr ⟨hopen, hclose⟩
      have hplain := (h.more hmore).plain hraw hnl hbracket fun hn => by
        have := hnext hn
        rintro rfl
        simp [marksStatement] at this
      dsimp only
      rw [if_neg hnl]
      split
      · rename_i hsemi
        refine Running.inv { hplain with
          headNext := fun _ => by simpa using hsemi.2
          colon := fun t ht htok => ?_ } hat hdrop hblank
        obtain rfl : (tok, span) = t := by simpa using ht
        simp [hsemi.1] at htok
      · exact hplain.inv hat hdrop hblank

lemma Held.of_brackets (h : Held s tail) (hbr : s.brackets = []) :
    s.droppedNewline = none ∧ tail = [] := by
  rw [Held] at h
  split at h
  · exact ⟨‹_›, h⟩
  · exact absurd hbr h.1

lemma Held.newline (h : Held s tail) (hbr : s.brackets ≠ []) (hspan : span.isEmpty = false) :
    Held { s with droppedNewline := some (s.droppedNewline.getD span) }
      (tail ++ [(.newline, span)]) := by
  rw [Held] at h
  split at h
  · rename_i hdrop
    subst h
    simpa [Held, hdrop] using ⟨hbr, hspan⟩
  · rename_i nl hdrop
    obtain ⟨-, hnl, more, rfl, hmore⟩ := h
    simp only [Held, hdrop, Option.getD_some]
    refine ⟨hbr, hnl, more ++ [(.newline, span)], by simp, fun t ht => ?_⟩
    rcases mem_append.mp ht with ht | ht
    · exact hmore t ht
    · rw [mem_singleton.mp ht]

lemma resume_newline (source : Text) (span : Span) (s : Layout) :
    s.resume source .newline span = s := by
  rw [Layout.resume]
  split <;> rfl

lemma head_newline (hat : s.atLineStart = false) (source : Text) (span : Span) :
    s.head source .newline span = s := by simp [Layout.head, hat]

lemma atLineStart_eq (hat : s.atLineStart = false) : { s with atLineStart := false } = s := by
  cases s
  simp_all

lemma place_newline_outside (hbr : s.brackets = []) (resync : List ℕ) (index : ℕ) (span : Span) :
    s.place resync index .newline span = s.endLine span := by
  simp [Layout.place, Bracket.openedBy, Bracket.closedBy, hbr]

lemma place_newline_inside (hbr : s.brackets ≠ []) (resync : List ℕ) (index : ℕ) (span : Span) :
    s.place resync index .newline span =
      { s with droppedNewline := some (s.droppedNewline.getD span) } := by
  simp [Layout.place, Bracket.openedBy, Bracket.closedBy, hbr]

/-- A token that is no newline finds the run ready for it. -/
lemma Inv.resume (h : Inv file done s) (hnl : tok ≠ .newline) (source : Text) (span : Span) :
    Ready file (done.map (·.2)) done (s.resume source tok span) := by
  rw [Layout.resume]
  rcases h with ⟨hat, -, hrested⟩ | ⟨hat, prior, tail, rfl, hblank, hrunning, hheld⟩
  · rw [hrested.dropped]
    exact .inl ⟨hat, hrested⟩
  rw [Held] at hheld
  split at hheld
  · rename_i hdrop
    subst hheld
    rw [hdrop]
    rw [append_nil] at hrunning ⊢
    exact .inr ⟨hat, hdrop, hrunning⟩
  · rename_i nl hdrop
    obtain ⟨hbr, hspan, more, rfl, hmore⟩ := hheld
    rw [hdrop]
    dsimp only
    rw [if_neg hnl]
    have hreset : Running file ((prior ++ (.newline, nl) :: more).map (·.2)) prior
        { s with droppedNewline := none } := { hrunning with }
    exact hreset.physicalLine hat rfl hbr hspan hblank hmore source tok span

/-- **A token keeps the invariant.** -/
theorem Inv.token (h : Inv file done s) (hraw : Raw (tok, span)) (input : Input) (index : ℕ) :
    Inv file (done ++ [(tok, span)]) (s.token input index tok span) := by
  have hmore := subperm_spans done (tok, span)
  rw [Layout.token]
  by_cases hnl : tok = .newline
  · subst hnl
    rcases h with ⟨hat, hblank, hrested⟩ | ⟨hat, prior, tail, rfl, hblank, hrunning, hheld⟩
    · -- a blank line
      rw [if_pos (by simp [hat])]
      exact .inl ⟨hat, blankAfter_concat_newline _ _,
        { hrested.more hmore with reads := hrested.reads.blank hblank }⟩
    · rw [if_neg (by simp [hat]), resume_newline, head_newline hat]
      dsimp only
      rw [atLineStart_eq hat]
      by_cases hbr : s.brackets = []
      · -- the line ends
        obtain ⟨hdrop, rfl⟩ := hheld.of_brackets hbr
        rw [place_newline_outside hbr]
        rw [append_nil] at hrunning hmore ⊢
        exact .inl ⟨rfl, blankAfter_concat_newline _ _,
          (hrunning.more hmore).endLine hbr hdrop hraw.1 hblank⟩
      · -- the newline waits with the first one met since the last token
        rw [place_newline_inside hbr]
        refine .inr ⟨hat, prior, tail ++ [(.newline, span)], by simp, hblank, ?_,
          hheld.newline hbr hraw.1⟩
        exact { hrunning.more hmore with }
  · rw [if_neg (by simp [hnl])]
    obtain ⟨hrunning, hdrop, hnext⟩ := (h.resume hnl input.source span).head input.source hnl span
    exact hrunning.inLine.place rfl hdrop hraw hnl hnext input.resync index

/-! ## The end of the text -/

/-- Every bracket is closed, and every raw token accounted for. -/
structure Ended (file : ℕ) (spans : List Span) (done : List Placed) (s : Layout) : Prop where
  settled : Settled file (openLevels s.level s.enclosing) s.blockValueIndents s.out
  matched : Matched [] s.out s.errors
  accounts : (account s.errors []).Subperm spans
  reads : Reads (· ∈ account s.errors []) done s.out

/-- A bracket still open at the end of the text. -/
def closeAtEnd (end_ : Span) (s : Layout) (b : OpenBracket) : Layout :=
  { s.closeUnclosed end_ b with resyncNext := s.resyncNext ++ [b.index] }

variable {end_ : Span}

lemma Holds.closeAtEnd (h : Holds file spans done stack s) (hend : end_.isEmpty = true) :
    Ended file spans done (stack.foldl (Layout.closeAtEnd end_) s) := by
  induction stack generalizing s with
  | nil => exact ⟨h.line.settle, h.matched, h.accounts, h.reads⟩
  | cons b stack ih =>
    exact ih { h.closeUnclosed hend with }

lemma Inv.ended (h : Inv file done s) (hend : end_.isEmpty = true) :
    Ended file (done.map (·.2)) done
      (s.brackets.foldl (Layout.closeAtEnd end_) { s with brackets := [] }) := by
  rcases h with ⟨-, -, hrested⟩ | ⟨-, prior, tail, rfl, -, hrunning, hheld⟩
  · rw [hrested.brackets]
    exact { hrested with }
  have hall : Running file ((prior ++ tail).map (·.2)) (prior ++ tail) s := by
    rw [Held] at hheld
    split at hheld
    · subst hheld
      simpa using hrunning
    · obtain ⟨hbr, -, more, rfl, hmore⟩ := hheld
      exact hrunning.dropNewlines hbr hmore
  have hholds : Holds file ((prior ++ tail).map (·.2)) (prior ++ tail) s.brackets
      { s with brackets := [] } := { hall with }
  exact hholds.closeAtEnd hend

lemma Ended.newline (h : Ended file spans done s) (hend : end_.isEmpty = true) :
    ∃ body nl, (if s.out.getLast?.any (fun t => t.1 == .newline) then s.out
        else s.out ++ [(.newline, end_)]) = body ++ [(.newline, nl)] ∧
      Ended file spans done { s with out := body ++ [(.newline, nl)] } := by
  split
  · rename_i hlast
    obtain ⟨⟨tok, nl⟩, hget, htok⟩ := Option.any_eq_true _ _ |>.mp hlast
    obtain rfl : tok = .newline := by simpa using htok
    obtain ⟨body, hbody⟩ := getLast?_eq_some_iff.mp hget
    refine ⟨body, nl, hbody, ?_⟩
    rw [← hbody]
    exact h
  · exact ⟨s.out, end_, rfl, h.settled.push (step_newline _ _ _), h.matched.plain rfl, h.accounts,
      h.reads.insert (significant_eq_false hend)⟩

lemma levelClosers_all (end_ : Span) (top : Level) (enclosing : List Level) :
    ∀ t ∈ levelClosers end_ top enclosing, t.1.isBlockCloser = true ∧ t.2 = end_ := by
  induction enclosing generalizing top with
  | nil => simp [levelClosers]
  | cons below rest ih =>
    intro t ht
    rcases List.mem_cons.mp ht with rfl | ht
    · exact ⟨closer_isBlockCloser top, rfl⟩
    · exact ih below t ht

/-- Putting the openers in leaves the brackets as they are. -/
lemma bracketPairs_weave (file : ℕ) (openers : List (ℕ × ℕ)) (out : List Placed) :
    bracketPairs (weave file 0 openers out) = bracketPairs out ∧
      (weave file 0 openers out).filter (fun t => (Bracket.closedBy t.1).isSome) =
        out.filter fun t => (Bracket.closedBy t.1).isSome := by
  refine ⟨?_, ?_⟩
  · refine weave_induction (Q := fun o => bracketPairs o = bracketPairs out)
      (fun a b at_ h => ?_) 0 openers rfl
    rw [bracketPairs, matching_insert rfl]
    exact h
  · refine weave_induction (Q := fun o => o.filter (fun t => (Bracket.closedBy t.1).isSome) =
      out.filter fun t => (Bracket.closedBy t.1).isSome) (fun a b at_ h => ?_) 0 openers rfl
    rw [← h]
    simp [Bracket.closedBy]

lemma Ended.wellLaid (h : Ended file spans done s) (hnodup : spans.Nodup) {body : List Placed}
    (hout : s.out = body ++ [(.newline, nl)]) (hend : end_.isEmpty = true) :
    WellLaid done (weave file 0 s.blockValueIndents
      (s.out ++ levelClosers end_ s.level s.enclosing)) s.errors := by
  have hall := levelClosers_all end_ s.level s.enclosing
  have hmatched := h.matched.plains fun x hx =>
    not_isBracket_of_isLayout (isLayout_of_isBlockCloser (hall x hx).1)
  obtain ⟨hpairs, hfilter⟩ := bracketPairs_weave file s.blockValueIndents
    (s.out ++ levelClosers end_ s.level s.enclosing)
  have haccount : account s.errors [] = s.errors.filterMap LexError.reported := by simp [account]
  refine ⟨?_, Pairing.nested_of_scan h.settled.levelClosers.scan, ?_, ?_, ?_⟩
  · obtain ⟨body', hbody'⟩ := exists_weave_concat file 0 s.blockValueIndents body (.newline, nl)
    refine ⟨body', nl, levelClosers end_ s.level s.enclosing, ?_, fun t ht => (hall t ht).1⟩
    rw [weave_append h.settled.before, hout, hbody']
    simp
  · have hreads := reads_inserts h.reads fun x hx =>
      significant_eq_false (t := x) (by rw [(hall x hx).2]; exact hend)
    refine (weave_induction (fun a b at_ hab => ?_) 0 s.blockValueIndents hreads).mono
      fun span hspan => ?_
    · exact hab.insert_anywhere (significant_eq_false (by simp)) rfl
    · rw [haccount] at hspan
      have := h.accounts
      rw [haccount] at this
      obtain ⟨l, hperm, hsub⟩ := this
      exact count_eq_one_of_mem (hperm.nodup_iff.mp (hnodup.sublist hsub)) hspan
  · rw [hfilter, hpairs]
    exact ⟨hmatched.closers, hmatched.kinds⟩
  · rw [hpairs, hmatched.errors]

/-- **The end of the text leaves a well-laid stream.** -/
theorem Inv.finish (h : Inv file done s) (hnodup : (done.map (·.2)).Nodup) {input : Input}
    (hfile : input.file = file) :
    WellLaid done (s.finish input).out (s.finish input).errors := by
  subst hfile
  have hend : (Span.at_ input.file input.source.length).isEmpty = true := by simp
  obtain ⟨body, nl, hbody, hended⟩ := (h.ended hend).newline hend
  have hlaid := hended.wellLaid hnodup rfl hend
  rw [← hbody] at hlaid
  exact hlaid

/-- **Every run leaves a well-laid stream**, whatever brackets it is asked to close early. -/
theorem run_wellLaid {raw : List Placed} (hraw : ∀ t ∈ raw, Raw t)
    (hnodup : (raw.map (·.2)).Nodup) (input : Input) :
    WellLaid raw (run input raw).out (run input raw).errors := by
  rw [run]
  refine Inv.finish ?_ hnodup rfl
  -- the tokens read so far are a prefix of the list
  suffices hgen : ∀ (rest done : List Placed) (s : Layout), (∀ t ∈ rest, Raw t) →
      Inv input.file done s → Inv input.file (done ++ rest)
        ((rest.zipIdx done.length).foldl (fun s t => s.token input t.2 t.1.1 t.1.2) s) by
    simpa using hgen raw [] initial hraw (inv_initial _)
  intro rest
  induction rest with
  | nil =>
    intro done s _ h
    simpa using h
  | cons t rest ih =>
    intro done s hrest h
    have hstep := h.token (hrest t (by simp)) input done.length
    have := ih (done ++ [t]) _ (fun u hu => hrest u (by simp [hu])) hstep
    simpa using this

end Cambra.Chl.Layout
