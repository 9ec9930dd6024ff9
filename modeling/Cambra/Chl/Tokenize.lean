import Cambra.Chl.Layout

/-!
# The stream of every source text

The raw tokens of a text stand one after another and cover bytes (`matches_spec`), so the layout of
any text is well laid, in the first run and in the one that resynchronises (`tokenize_wellLaid`).

An `Indent` covers its line's leading whitespace, which is no raw token
(`tokenize_indent_covers_bytes`); every other token the layout pass makes covers no byte.
-/

namespace Cambra.Chl

open List

/-- Tokens that stand one after another before `pos`, none of them of the layout pass. -/
structure Scanned (pos : ℕ) (tokens : List Placed) : Prop where
  covers : ∀ t ∈ tokens, t.2.start < t.2.stop ∧ t.2.stop ≤ pos ∧ t.1.isIndentation = false
  ordered : tokens.Pairwise fun a b => a.2.stop ≤ b.2.start

namespace Scanned

variable {pos : ℕ} {tokens : List Placed}

lemma concat (h : Scanned pos tokens) (tok : Token) (span : Span) (hpos : pos ≤ span.start)
    (hlt : span.start < span.stop) (htok : tok.isIndentation = false) :
    Scanned span.stop (tokens ++ [(tok, span)]) := by
  refine ⟨forall_mem_append.mpr ⟨fun t ht => ?_, forall_mem_singleton.mpr ⟨hlt, le_rfl, htok⟩⟩, ?_⟩
  · obtain ⟨hcovers, hle, hind⟩ := h.covers t ht
    exact ⟨hcovers, by omega, hind⟩
  · refine pairwise_append.mpr ⟨h.ordered, pairwise_singleton _ _, ?_⟩
    intro a ha b hb
    obtain rfl := mem_singleton.mp hb
    exact (h.covers a ha).2.1.trans hpos

lemma extend {run : Span} {tok : Token} (h : Scanned pos (tokens ++ [(tok, run)])) {stop : ℕ}
    (hstop : pos ≤ stop) : Scanned stop (tokens ++ [(tok, { run with stop := stop })]) := by
  obtain ⟨hordered, -, hlast⟩ := pairwise_append.mp h.ordered
  obtain ⟨hlt, hle, hind⟩ := h.covers (tok, run) (by simp)
  refine ⟨forall_mem_append.mpr ⟨fun t ht => ?_,
    forall_mem_singleton.mpr ⟨lt_of_lt_of_le hlt (hle.trans hstop), le_rfl, hind⟩⟩, ?_⟩
  · obtain ⟨hcovers, hle, hind⟩ := h.covers t (by simp [ht])
    exact ⟨hcovers, hle.trans hstop, hind⟩
  · refine pairwise_append.mpr ⟨hordered, pairwise_singleton _ _, fun a ha b hb => ?_⟩
    obtain rfl := mem_singleton.mp hb
    exact hlast a ha (tok, run) (by simp)

lemma pushFailure (h : Scanned pos tokens) (errors : List LexError) (span : Span)
    (hpos : pos ≤ span.start) (hlt : span.start < span.stop) :
    Scanned span.stop (pushFailure tokens errors span).1 := by
  have hpush : Scanned span.stop (tokens ++ [(.error, span)]) := h.concat _ _ hpos hlt rfl
  rw [Chl.pushFailure]
  split
  · rename_i run _ hlast _
    split
    · obtain ⟨body, rfl⟩ := getLast?_eq_some_iff.mp hlast
      rw [dropLast_concat]
      exact h.extend (by omega)
    · exact hpush
  · exact hpush

lemma raw (h : Scanned pos tokens) : ∀ t ∈ tokens, Layout.Raw t := by
  intro t ht
  obtain ⟨hlt, -, hind⟩ := h.covers t ht
  refine ⟨?_, hind⟩
  simp only [Span.isEmpty, beq_eq_false_iff_ne]
  omega

lemma nodup (h : Scanned pos tokens) : (tokens.map (·.2)).Nodup := by
  refine pairwise_map.mpr (List.Pairwise.imp_of_mem (fun ha hb hle heq => ?_) h.ordered)
  have := (h.covers _ hb).1
  rw [heq] at hle
  omega

lemma sublist {tokens' : List Placed} (h : Scanned pos tokens) (hsub : tokens'.Sublist tokens) :
    Scanned pos tokens' :=
  ⟨fun t ht => h.covers t (hsub.subset ht), h.ordered.sublist hsub⟩

end Scanned

/-- The error is not about a bracket. -/
def LexError.IsRaw (e : LexError) : Prop := e.reported = none ∧ e.unclosed = none

variable {errors : List LexError} {source : Text}

lemma pushFailure_errors (tokens : List Placed) (h : ∀ e ∈ errors, e.IsRaw) (span : Span) :
    ∀ e ∈ (pushFailure tokens errors span).2, e.IsRaw := by
  have hpush : ∀ e ∈ errors ++ [.invalidToken span], e.IsRaw :=
    forall_mem_append.mpr ⟨h, forall_mem_singleton.mpr ⟨rfl, rfl⟩⟩
  rw [pushFailure]
  split
  · split
    · exact forall_mem_append.mpr ⟨fun e he => h e (dropLast_subset _ he),
        forall_mem_singleton.mpr ⟨rfl, rfl⟩⟩
    · exact hpush
  · exact hpush

/-- **The raw tokens stand one after another**, and no raw error is about a bracket. -/
theorem matches_spec (file : ℕ) (lexer : Lexer source) (pos : ℕ) (tokens : List Placed)
    (errors : List LexError) (h : Scanned pos tokens) (herr : ∀ e ∈ errors, e.IsRaw) :
    (∃ stop, Scanned stop (matches_ file lexer pos tokens errors).1) ∧
      ∀ e ∈ (matches_ file lexer pos tokens errors).2, e.IsRaw := by
  fun_induction matches_ file lexer pos tokens errors with
  | case1 pos tokens errors hnext => exact ⟨⟨pos, h⟩, herr⟩
  | case2 pos tokens errors tok start stop hnext ih =>
    obtain ⟨hpos, hlt, -⟩ := lexer.bounds hnext
    exact ih (h.concat tok ⟨file, start, stop⟩ hpos hlt (lexer.not_indentation hnext)) herr
  | case3 pos tokens errors start stop hnext hquote stop' text ih =>
    obtain ⟨hpos, hlt, -⟩ := lexer.bounds hnext
    have hle : stop ≤ stop' := lexer.within_line hnext hquote
    refine ih ?_ (forall_mem_append.mpr ⟨herr, forall_mem_singleton.mpr ⟨rfl, rfl⟩⟩)
    rw [Nat.add_sub_cancel' hle]
    exact h.concat _ ⟨file, start, stop'⟩ hpos (lt_of_lt_of_le hlt hle) rfl
  | case4 pos tokens errors start stop hnext hquote tokens' errors' hpush ih =>
    obtain ⟨hpos, hlt, -⟩ := lexer.bounds hnext
    have htokens := h.pushFailure errors ⟨file, start, stop⟩ hpos hlt
    have herrors := pushFailure_errors tokens herr ⟨file, start, stop⟩
    rw [hpush] at htokens herrors
    exact ih htokens herrors

lemma mem_sortErrors {e : LexError} : e ∈ sortErrors errors ↔ e ∈ errors := mem_mergeSort

lemma sortErrors_perm (errors : List LexError) : (sortErrors errors).Perm errors :=
  mergeSort_perm errors _

lemma scanned_nil (pos : ℕ) : Scanned pos [] :=
  ⟨fun _ h => absurd h List.not_mem_nil, List.Pairwise.nil⟩

lemma rawTokens_scanned (file : ℕ) (lexer : Lexer source) :
    ∃ stop, Scanned stop (rawTokens file lexer).tokens :=
  (matches_spec file lexer 0 [] [] (scanned_nil 0) (fun _ h => absurd h List.not_mem_nil)).1

lemma rawTokens_errors (file : ℕ) (lexer : Lexer source) :
    ∀ e ∈ (rawTokens file lexer).errors, e.IsRaw := by
  intro e he
  rw [rawTokens, mem_sortErrors] at he
  rcases mem_append.mp he with he | he
  · exact (matches_spec file lexer 0 [] [] (scanned_nil 0)
      (fun _ h => absurd h List.not_mem_nil)).2 e he
  · obtain ⟨i, -, hi⟩ := mem_filterMap.mp he
    obtain ⟨t, -, rfl⟩ := Option.map_eq_some_iff.mp hi
    exact ⟨rfl, rfl⟩

lemma RawTokens.attached_sublist (raw : RawTokens) : raw.attached.Sublist raw.tokens := by
  have h := (filter_sublist (p := fun t => !raw.detached.contains t.2)
    (l := raw.tokens.zipIdx)).map Prod.fst
  rwa [zipIdx_map_fst] at h

/-- Errors that are not about brackets may be added, in any order. -/
lemma WellLaid.addErrors {raw out : List Placed} {more errors' : List LexError}
    (h : WellLaid raw out errors) (hmore : ∀ e ∈ more, e.IsRaw)
    (hperm : errors'.Perm (more ++ errors)) : WellLaid raw out errors' := by
  have hreported : (errors'.filterMap LexError.reported).Perm
      (errors.filterMap LexError.reported) := by
    have := hperm.filterMap LexError.reported
    rwa [filterMap_append, filterMap_eq_nil_iff.mpr fun e he => (hmore e he).1, nil_append] at this
  have hunclosed : (errors'.filterMap LexError.unclosed).Perm
      (errors.filterMap LexError.unclosed) := by
    have := hperm.filterMap LexError.unclosed
    rwa [filterMap_append, filterMap_eq_nil_iff.mpr fun e he => (hmore e he).2, nil_append] at this
  exact ⟨h.ends, h.nests, h.reads.mono fun _ hspan => (hreported.count_eq _).trans hspan,
    h.partners, h.closers.trans hunclosed.symm⟩

/-- **Every text is well laid.** For every source text, the output of each run of the layout pass
over its raw tokens is well laid, whichever open brackets, by their indices, it closes before the
line that ends their statement: so in the first run, which closes none, and in the second.  So is
the stream `tokenize` returns, with all the errors it returns. -/
theorem tokenize_wellLaid (file : ℕ) {source : Text} (lexer : Lexer source) :
    (∀ resync, WellLaid (rawTokens file lexer).attached
      (Layout.run ⟨file, source, resync⟩ (rawTokens file lexer).attached).out
      (Layout.run ⟨file, source, resync⟩ (rawTokens file lexer).attached).errors) ∧
    WellLaid (rawTokens file lexer).attached (tokenize file lexer).tokens
      (tokenize file lexer).errors := by
  obtain ⟨stop, hscanned⟩ := rawTokens_scanned file lexer
  have hattached : Scanned stop (rawTokens file lexer).attached :=
    hscanned.sublist (RawTokens.attached_sublist _)
  have hrun : ∀ resync, WellLaid (rawTokens file lexer).attached
      (Layout.run ⟨file, source, resync⟩ (rawTokens file lexer).attached).out
      (Layout.run ⟨file, source, resync⟩ (rawTokens file lexer).attached).errors :=
    fun _ => Layout.run_wellLaid hattached.raw hattached.nodup _
  refine ⟨hrun, ?_⟩
  have hlaid : WellLaid (rawTokens file lexer).attached
      (layOut file source (rawTokens file lexer).attached).out
      (layOut file source (rawTokens file lexer).attached).errors := by
    rw [layOut]
    split
    · exact hrun []
    · exact hrun _
  exact hlaid.addErrors (rawTokens_errors file lexer) (sortErrors_perm _)

/-- A text of one indented name, read by a matcher that finds the name. -/
def indentedName : Lexer [32, 97] where
  next pos := if pos ≤ 1 then some (some (.ident [97]), 1, 2) else none
  bounds := by
    intro pos r start stop h
    split at h
    · cases h
      exact ⟨by omega, by decide, by decide⟩
    · cases h
  not_indentation := by
    intro pos t start stop h
    split at h
    · cases h
      rfl
    · cases h
  within_line := by
    intro pos start stop h
    split at h <;> cases h

lemma rawTokens_indentedName : (rawTokens 0 indentedName).tokens = [(.ident [97], ⟨0, 1, 2⟩)] ∧
    (rawTokens 0 indentedName).attached = [(.ident [97], ⟨0, 1, 2⟩)] := by
  have hmatches : matches_ 0 indentedName 0 [] [] = ([(.ident [97], ⟨0, 1, 2⟩)], []) := by
    simp [matches_, indentedName]
  rw [rawTokens, hmatches]
  decide

lemma tokenize_indentedName : (tokenize 0 indentedName).tokens =
    [(.indent, ⟨0, 0, 1⟩), (.ident [97], ⟨0, 1, 2⟩), (.newline, ⟨0, 2, 2⟩),
      (.dedent, ⟨0, 2, 2⟩)] := by
  show (layOut 0 [32, 97] (rawTokens 0 indentedName).attached).out = _
  rw [rawTokens_indentedName.2]
  decide

theorem tokenize_wellLaid_indentedName : WellLaid [(.ident [97], ⟨0, 1, 2⟩)]
      [(.indent, ⟨0, 0, 1⟩), (.ident [97], ⟨0, 1, 2⟩), (.newline, ⟨0, 2, 2⟩), (.dedent, ⟨0, 2, 2⟩)]
      (tokenize 0 indentedName).errors := by
  have h := (tokenize_wellLaid 0 indentedName).2
  rwa [tokenize_indentedName, rawTokens_indentedName.2] at h

/-- The `Indent` of an indented line covers the line's leading whitespace, and is no raw token. -/
theorem tokenize_indent_covers_bytes : ∃ t ∈ (tokenize 0 indentedName).tokens, t.2.isEmpty = false ∧
      t ∉ (rawTokens 0 indentedName).tokens := by
  refine ⟨(.indent, ⟨0, 0, 1⟩), ?_, rfl, ?_⟩
  · simp [tokenize_indentedName]
  · simp [rawTokens_indentedName.1]

end Cambra.Chl
