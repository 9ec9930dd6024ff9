import Cambra.Chl.Stream
import Mathlib.Data.List.Perm.Subperm

/-!
# Lines, levels and brackets of a run

The invariants of the layout pass that speak of its stream: how the levels and the brackets on its
stacks stand to the tokens it has put out.

A block value's opener is put in only once the run ends, before the head of the line that opened it.
So the stream is read as it will be (`weave`), in two parts: up to the head of the current line's
last statement it is `Settled`, and from there on it holds brackets and plain tokens only
(`InLine`).  Ending the line settles the rest, with an opener before it where the line opened a
block value.
-/

namespace Cambra.Chl.Layout

open List

/-! ## Openers put in after the fact -/

variable {at_ : ℕ} {openers : List (ℕ × ℕ)} {t : Placed}

section Weave

variable {file : ℕ}

lemma weave_nil (i : ℕ) (out : List Placed) : weave file i [] out = out := by
  induction out generalizing i with
  | nil => rfl
  | cons t out ih => simp [weave, ih]

variable {i : ℕ}

lemma no_opener (h : ∀ o ∈ openers, o.1 ≠ i) : openers.takeWhile (fun o => o.1 == i) = [] ∧
      openers.dropWhile (fun o => o.1 == i) = openers := by
  cases openers with
  | nil => simp
  | cons o openers => simp [h o (by simp)]

lemma weave_cons_of_ne (h : ∀ o ∈ openers, o.1 ≠ i) (t : Placed) (out : List Placed) :
    weave file i openers (t :: out) = t :: weave file (i + 1) openers out := by
  rw [weave, (no_opener h).1, (no_opener h).2]
  rfl

lemma weave_of_lt (h : ∀ o ∈ openers, o.1 < i) (out : List Placed) :
    weave file i openers out = out := by
  induction out generalizing i with
  | nil => rfl
  | cons t out ih =>
    rw [weave_cons_of_ne fun o ho => (h o ho).ne]
    rw [ih fun o ho => Nat.lt_succ_of_lt (h o ho)]

/-- Past the last opener's place, the stream stands as it is. -/
lemma weave_append {pre : List Placed} (h : ∀ o ∈ openers, o.1 < i + pre.length)
    (rest : List Placed) :
    weave file i openers (pre ++ rest) = weave file i openers pre ++ rest := by
  induction pre generalizing i openers with
  | nil => exact weave_of_lt (by simpa using h) rest
  | cons t pre ih =>
    have hdrop : ∀ o ∈ openers.dropWhile (fun o => o.1 == i), o.1 < i + 1 + pre.length := by
      intro o ho
      have := h o ((dropWhile_sublist _).subset ho)
      simp only [length_cons] at this
      omega
    simp [weave, ih hdrop]

/-- The openers stand in the order of their places, from `i` on and before `n`. -/
def Ascends (i n : ℕ) (openers : List (ℕ × ℕ)) : Prop :=
  openers.Pairwise (fun a b => a.1 < b.1) ∧ ∀ o ∈ openers, i ≤ o.1 ∧ o.1 < n

lemma weave_cons_eq (h : ∀ o ∈ openers, o.1 ≠ i) (t : Placed) (out : List Placed) :
    weave file i ((i, at_) :: openers) (t :: out) =
      (.blockValueIndent, .at_ file at_) :: t :: weave file (i + 1) openers out := by
  simp [weave, no_opener h]

lemma weave_concat {n : ℕ} {pre : List Placed} (hn : n = i + pre.length) (h : Ascends i n openers)
    (t : Placed) (rest : List Placed) :
    weave file i (openers ++ [(n, at_)]) (pre ++ t :: rest) =
      weave file i openers pre ++ (.blockValueIndent, .at_ file at_) :: t :: rest := by
  subst hn
  induction pre generalizing i openers with
  | nil =>
    obtain rfl : openers = [] := by
      refine eq_nil_iff_forall_not_mem.mpr fun o ho => ?_
      have := h.2 o ho
      simp only [length_nil] at this
      omega
    rw [nil_append, nil_append, length_nil, Nat.add_zero, weave_cons_eq (by simp), weave_nil]
    rfl
  | cons p pre ih =>
    have hlen : i + (p :: pre).length = i + 1 + pre.length := by
      simp only [length_cons]
      omega
    rw [hlen] at h ⊢
    rw [cons_append]
    -- the first opener may stand here, and every other stands later
    by_cases hhere : ∃ o ∈ openers, o.1 = i
    · obtain ⟨o, os, rfl⟩ : ∃ o os, openers = o :: os := by
        obtain ⟨o, ho, -⟩ := hhere
        exact exists_cons_of_ne_nil (ne_nil_of_mem ho)
      obtain ⟨hlt, hasc⟩ := pairwise_cons.mp h.1
      have ho : o.1 = i := by
        obtain ⟨o', ho', heq⟩ := hhere
        rcases List.mem_cons.mp ho' with rfl | ho'
        · exact heq
        · have := hlt o' ho'
          have := (h.2 o (by simp)).1
          omega
      obtain ⟨j, at'⟩ := o
      obtain rfl : j = i := ho
      have hlater : Ascends (j + 1) (j + 1 + pre.length) os :=
        ⟨hasc, fun o ho => ⟨hlt o ho, (h.2 o (by simp [ho])).2⟩⟩
      have hne : ∀ o ∈ os ++ [(j + 1 + pre.length, at_)], o.1 ≠ j :=
        forall_mem_append.mpr ⟨fun o ho => (hlt o ho).ne', by simp; omega⟩
      rw [cons_append, weave_cons_eq hne, ih hlater, weave_cons_eq fun o ho => hne o (by simp [ho])]
      rfl
    · push Not at hhere
      have hlater : Ascends (i + 1) (i + 1 + pre.length) openers :=
        ⟨h.1, fun o ho => ⟨Nat.lt_of_le_of_ne (h.2 o ho).1 (hhere o ho).symm, (h.2 o ho).2⟩⟩
      have hne : ∀ o ∈ openers ++ [(i + 1 + pre.length, at_)], o.1 ≠ i :=
        forall_mem_append.mpr ⟨hhere, by simp; omega⟩
      rw [weave_cons_of_ne hne, ih hlater, weave_cons_of_ne hhere]
      rfl

/-- Openers are put in before tokens, so the last token stays the last. -/
lemma exists_weave_concat (file i : ℕ) (openers : List (ℕ × ℕ)) (out : List Placed) (t : Placed) :
    ∃ body, weave file i openers (out ++ [t]) = body ++ [t] := by
  induction out generalizing i openers with
  | nil => exact ⟨_, rfl⟩
  | cons u out ih =>
    obtain ⟨body, hbody⟩ := ih (i + 1) (openers.dropWhile fun o => o.1 == i)
    rw [cons_append, weave, hbody, ← cons_append, ← append_assoc]
    exact ⟨_, rfl⟩

/-- What is kept by putting one opener anywhere is kept by putting in all of them. -/
lemma weave_induction {Q : List Placed → Prop}
    (hinsert : ∀ a b at_, Q (a ++ b) → Q (a ++ (.blockValueIndent, .at_ file at_) :: b)) (i : ℕ)
    (openers : List (ℕ × ℕ)) {out : List Placed} (h : Q out) : Q (weave file i openers out) := by
  suffices hgen : ∀ pre, Q (pre ++ out) → Q (pre ++ weave file i openers out) from hgen [] h
  clear h
  induction out generalizing i openers with
  | nil => exact fun pre h => h
  | cons t out ih =>
    intro pre h
    have hput : ∀ (os : List (ℕ × ℕ)) (rest : List Placed), Q (pre ++ rest) →
        Q (pre ++ (os.map (fun o => (Token.blockValueIndent, Span.at_ file o.2)) ++ rest)) := by
      intro os rest hrest
      induction os with
      | nil => exact hrest
      | cons o os ihos => exact hinsert _ _ _ ihos
    rw [weave]
    refine hput _ _ ?_
    have hrest := ih (i + 1) (openers.dropWhile fun o => o.1 == i) (pre ++ [t])
    simpa using hrest (by simpa using h)

end Weave

/-! ## Levels -/

/-- The pair a level is. -/
def pairOf : Level → Pair
  | .fixed _ => .block
  | .pending _ | .pinned _ => .blockValue

/-- The pairs of the levels but the outermost, innermost first. -/
def openLevels : Level → List Level → List Pair
  | _, [] => []
  | top, below :: rest => pairOf top :: openLevels below rest

lemma openLevels_all (top : Level) (enclosing : List Level) :
    (openLevels top enclosing).all (fun k => !k.isBracket) = true := by
  induction enclosing generalizing top with
  | nil => rfl
  | cons below rest ih =>
    rw [openLevels, all_cons, ih below]
    cases top <;> rfl

lemma admits_levels (top : Level) (enclosing : List Level) (t : Placed) :
    layoutPairing.admits (openLevels top enclosing) t = true := by
  simp [layoutPairing, openLevels_all]

lemma step_closer (top below : Level) (rest : List Level) (span : Span) :
    layoutPairing.step (openLevels top (below :: rest)) (top.closer, span) =
      some (openLevels below rest) := by
  have hcloses : layoutPairing.closes (top.closer, span) = some (pairOf top) := by cases top <;> rfl
  exact Pairing.step_closes hcloses (admits_levels top (below :: rest) _)

lemma step_indent (level : Level) (enclosing : List Level) (column : ℕ) (span : Span) :
    layoutPairing.step (openLevels level enclosing) (.indent, span) =
      some (openLevels (.fixed column) (level :: enclosing)) :=
  Pairing.step_opens rfl (admits_levels level enclosing _)

lemma step_newline (level : Level) (enclosing : List Level) (span : Span) :
    layoutPairing.step (openLevels level enclosing) (.newline, span) =
      some (openLevels level enclosing) :=
  Pairing.step_plain rfl rfl (admits_levels level enclosing _)

/-! ## The settled part of the stream -/

/-- Read with its openers, the stream leaves `levels` open. -/
structure Settled (file : ℕ) (levels : List Pair) (openers : List (ℕ × ℕ)) (out : List Placed) :
    Prop where
  ascends : Ascends 0 out.length openers
  scan : layoutPairing.scan [] (weave file 0 openers out) = some levels

namespace Settled

variable {file : ℕ} {levels levels' : List Pair} {out : List Placed}

lemma before (h : Settled file levels openers out) : ∀ o ∈ openers, o.1 < 0 + out.length := by
  simpa using fun o ho => (h.ascends.2 o ho).2

/-- Tokens put after it, read from the levels it leaves open. -/
lemma append (h : Settled file levels openers out) {ts : List Placed}
    (hscan : layoutPairing.scan levels ts = some levels') :
    Settled file levels' openers (out ++ ts) := by
  refine ⟨⟨h.ascends.1, fun o ho => ?_⟩, ?_⟩
  · have := (h.ascends.2 o ho).2
    simp only [length_append]
    omega
  · rw [weave_append h.before, Pairing.scan_append, h.scan]
    exact hscan

lemma push (h : Settled file levels openers out)
    (hstep : layoutPairing.step levels t = some levels') :
    Settled file levels' openers (out ++ [t]) :=
  h.append (by rw [Pairing.scan_cons, hstep]; rfl)

lemma closeLevels {top : Level} {enclosing : List Level}
    (h : Settled file (openLevels top enclosing) openers out) (indent : ℕ) (at_ : Span) :
    Settled file (openLevels (Layout.closeLevels indent at_ top enclosing out).1
        (Layout.closeLevels indent at_ top enclosing out).2.1)
      openers (Layout.closeLevels indent at_ top enclosing out).2.2 := by
  induction enclosing generalizing top out with
  | nil => exact h
  | cons below rest ih =>
    rw [Layout.closeLevels]
    split
    · exact ih (h.push (step_closer top below rest at_))
    · exact h

lemma levelClosers {at_ : Span} {top : Level} {enclosing : List Level}
    (h : Settled file (openLevels top enclosing) openers out) :
    Settled file [] openers (out ++ Layout.levelClosers at_ top enclosing) := by
  refine h.append ?_
  clear h
  induction enclosing generalizing top with
  | nil => rfl
  | cons below rest ih =>
    rw [Layout.levelClosers, Pairing.scan_cons, step_closer]
    exact ih

end Settled

/-! ## The current line -/

/-- Up to `head` the stream is settled; from there on it holds no layout and leaves `stack` open. -/
def InLine (file : ℕ) (levels stack : List Pair) (head : ℕ) (openers : List (ℕ × ℕ))
    (out : List Placed) : Prop :=
  ∃ pre line, out = pre ++ line ∧ pre.length = head ∧ Settled file levels openers pre ∧
    (∀ t ∈ line, t.1.isLayout = false) ∧ layoutPairing.scan [] line = some stack

namespace InLine

variable {file head : ℕ} {levels stack stack' : List Pair} {out : List Placed}

lemma admits_of_not_isLayout (h : t.1.isLayout = false) (ctx : List Pair) :
    layoutPairing.admits ctx t = true := by simp [layoutPairing, h]

lemma head_le (h : InLine file levels stack head openers out) : head ≤ out.length := by
  obtain ⟨pre, line, rfl, rfl, -⟩ := h
  simp

lemma push (h : InLine file levels stack head openers out) (hlayout : t.1.isLayout = false)
    (hstep : layoutPairing.step stack t = some stack') :
    InLine file levels stack' head openers (out ++ [t]) := by
  obtain ⟨pre, line, rfl, hhead, hsettled, hline, hscan⟩ := h
  refine ⟨pre, line ++ [t], by simp, hhead, hsettled,
    forall_mem_append.mpr ⟨hline, forall_mem_singleton.mpr hlayout⟩, ?_⟩
  rw [Pairing.scan_append, hscan, Option.bind_some, Pairing.scan_cons, hstep]
  rfl

lemma scan_line {line : List Placed} (hline : ∀ t ∈ line, t.1.isLayout = false)
    (hscan : layoutPairing.scan [] line = some []) (ctx : List Pair) :
    layoutPairing.scan ctx line = some ctx :=
  Pairing.scan_frame (fun t ht => admits_of_not_isLayout (hline t ht)) hscan ctx

lemma settle (h : InLine file levels [] head openers out) : Settled file levels openers out := by
  obtain ⟨pre, line, rfl, -, hsettled, hline, hscan⟩ := h
  exact hsettled.append (scan_line hline hscan levels)

/-- A line that opens a block value is settled with the opener before its head. -/
lemma settle_open (h : InLine file levels [] head openers out) (hlt : head < out.length)
    (hlevels : levels.all (fun k => !k.isBracket) = true) :
    Settled file (.blockValue :: levels) (openers ++ [(head, at_)]) out := by
  obtain ⟨pre, line, rfl, rfl, hsettled, hline, hscan⟩ := h
  obtain ⟨t, line, rfl⟩ : ∃ t l, line = t :: l := by
    refine exists_cons_of_ne_nil ?_
    rintro rfl
    simp at hlt
  refine ⟨⟨?_, ?_⟩, ?_⟩
  · refine pairwise_append.mpr ⟨hsettled.ascends.1, pairwise_singleton _ _, ?_⟩
    intro o ho o' ho'
    obtain rfl := mem_singleton.mp ho'
    exact (hsettled.ascends.2 o ho).2
  · refine forall_mem_append.mpr ⟨fun o ho => ?_, by simp⟩
    have := (hsettled.ascends.2 o ho).2
    exact ⟨Nat.zero_le _, by simp only [length_append]; omega⟩
  · have hopen : layoutPairing.step levels (.blockValueIndent, .at_ file at_) =
        some (.blockValue :: levels) :=
      Pairing.step_opens rfl (by simp [layoutPairing, hlevels])
    rw [weave_concat (by simp) hsettled.ascends, Pairing.scan_append, hsettled.scan,
      Option.bind_some, Pairing.scan_cons, hopen]
    exact scan_line hline hscan _

end InLine

lemma Settled.inLine {file : ℕ} {levels : List Pair} {out : List Placed}
    (h : Settled file levels openers out) : InLine file levels [] out.length openers out :=
  ⟨out, [], by simp, rfl, h, by simp, rfl⟩

end Cambra.Chl.Layout
