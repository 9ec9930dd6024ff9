import Mathlib.Data.List.Basic

/-!
# Properly nested sequences of pairs

A `Pairing` says which tokens open a pair, which close one, and which may stand under the pairs
that are open.  `Nested` is the language of the token sequences that are properly nested in that
sense, and `scan` the stack machine that recognises it: a sequence the machine takes from the empty
stack back to it is nested (`nested_of_scan`).

`matching` reads the partner of every closer off a sequence, without asking that it be nested.
-/

namespace Cambra

variable {τ κ : Type*}

/-- Which tokens open and close pairs of the kinds `κ`, and where a token may stand. -/
structure Pairing (τ κ : Type*) where
  /-- The kind of pair the token opens. -/
  opens : τ → Option κ
  /-- The kind of pair the token closes. -/
  closes : τ → Option κ
  /-- Whether the token may stand under the open pairs, innermost first. -/
  admits : List κ → τ → Bool
  opens_eq_none : ∀ {t k}, closes t = some k → opens t = none

namespace Pairing

/-- The sequence is properly nested under the open pairs `ctx`, innermost first. -/
inductive Nested (P : Pairing τ κ) : List κ → List τ → Prop
  | nil {ctx : List κ} : Nested P ctx []
  | plain {ctx : List κ} {t : τ} {ts : List τ} (ho : P.opens t = none) (hc : P.closes t = none)
      (ha : P.admits ctx t = true) (h : Nested P ctx ts) : Nested P ctx (t :: ts)
  | pair {ctx : List κ} {k : κ} {o c : τ} {inner rest : List τ} (ho : P.opens o = some k)
      (hao : P.admits ctx o = true) (hin : Nested P (k :: ctx) inner) (hc : P.closes c = some k)
      (hac : P.admits (k :: ctx) c = true) (hrest : Nested P ctx rest) :
      Nested P ctx (o :: inner ++ c :: rest)

variable {k : κ} {t : τ} {ts : List τ} {state : List τ × List (τ × τ)}

section Scan

variable [DecidableEq κ] (P : Pairing τ κ)

/-- One token, read against the stack of open pairs. -/
def step (stack : List κ) (t : τ) : Option (List κ) :=
  if P.admits stack t then
    match P.opens t, P.closes t with
    | some k, _ => some (k :: stack)
    | none, some k => if stack.head? = some k then some stack.tail else none
    | none, none => some stack
  else none

/-- The tokens, read one after another. -/
def scan (stack : List κ) (ts : List τ) : Option (List κ) := ts.foldlM P.step stack

variable {P}

@[simp] lemma scan_nil (stack : List κ) : P.scan stack [] = some stack := rfl

lemma scan_cons (stack : List κ) (t : τ) (ts : List τ) :
    P.scan stack (t :: ts) = (P.step stack t).bind fun s => P.scan s ts := rfl

lemma scan_append (stack : List κ) (ts us : List τ) :
    P.scan stack (ts ++ us) = (P.scan stack ts).bind fun s => P.scan s us := by
  simp [scan, List.foldlM_append]

variable {stack stack' : List κ}

lemma step_opens (ho : P.opens t = some k) (ha : P.admits stack t = true) :
    P.step stack t = some (k :: stack) := by simp [step, ho, ha]

lemma step_closes (hc : P.closes t = some k) (ha : P.admits (k :: stack) t = true) :
    P.step (k :: stack) t = some stack := by simp [step, P.opens_eq_none hc, hc, ha]

lemma step_plain (ho : P.opens t = none) (hc : P.closes t = none) (ha : P.admits stack t = true) :
    P.step stack t = some stack := by simp [step, ho, hc, ha]

lemma step_cases (h : P.step stack t = some stack') : P.admits stack t = true ∧
      ((∃ k, P.opens t = some k ∧ stack' = k :: stack) ∨
        (∃ k, P.opens t = none ∧ P.closes t = some k ∧ stack = k :: stack') ∨
        (P.opens t = none ∧ P.closes t = none ∧ stack' = stack)) := by
  rw [step] at h
  split_ifs at h with ha
  refine ⟨ha, ?_⟩
  cases ho : P.opens t with
  | some k =>
    simp only [ho, Option.some.injEq] at h
    exact .inl ⟨k, rfl, h.symm⟩
  | none =>
    cases hc : P.closes t with
    | none =>
      simp only [ho, hc, Option.some.injEq] at h
      exact .inr (.inr ⟨rfl, rfl, h.symm⟩)
    | some k =>
      simp only [ho, hc, Option.ite_none_right_eq_some, Option.some.injEq] at h
      refine .inr (.inl ⟨k, rfl, rfl, ?_⟩)
      obtain ⟨hhead, rfl⟩ := h
      exact (List.cons_head?_tail hhead).symm

/-- From an open pair back to no open pair, the pair's closer is met, and what stands before it is
nested. -/
lemma exists_closer_of_scan (n : ℕ) : ∀ {ts : List τ} {k : κ} {ctx : List κ}, ts.length ≤ n →
    P.scan (k :: ctx) ts = some [] → ∃ inner c rest, ts = inner ++ c :: rest ∧
      P.Nested (k :: ctx) inner ∧ P.closes c = some k ∧ P.admits (k :: ctx) c = true ∧
      P.scan ctx rest = some [] := by
  induction n with
  | zero =>
    intro ts k ctx hlen h
    obtain rfl := List.length_eq_zero_iff.mp (Nat.le_zero.mp hlen)
    simp at h
  | succ n ih =>
    intro ts k ctx hlen h
    cases ts with
    | nil => simp at h
    | cons t ts =>
      rw [scan_cons, Option.bind_eq_some_iff] at h
      obtain ⟨stack, hstep, h⟩ := h
      have hts : ts.length ≤ n := by simpa using hlen
      obtain ⟨ha, ⟨j, ho, rfl⟩ | ⟨j, ho, hc, heq⟩ | ⟨ho, hc, rfl⟩⟩ := step_cases hstep
      · -- an inner pair: past its closer, the search goes on
        obtain ⟨inner, c, rest, rfl, hin, hc, hac, hrest⟩ := ih hts h
        have hshort : rest.length ≤ n := by
          simp only [List.length_append, List.length_cons] at hts
          omega
        obtain ⟨inner', c', rest', rfl, hin', hc', hac', hrest'⟩ := ih hshort hrest
        exact ⟨t :: inner ++ c :: inner', c', rest', by simp, .pair ho ha hin hc hac hin', hc',
          hac', hrest'⟩
      · obtain ⟨rfl, rfl⟩ := List.cons.inj heq
        exact ⟨[], t, ts, rfl, .nil, hc, ha, h⟩
      · obtain ⟨inner, c, rest, rfl, hin, hc', hac', hrest⟩ := ih hts h
        exact ⟨t :: inner, c, rest, rfl, .plain ho hc ha hin, hc', hac', hrest⟩

/-- **What the stack machine takes back to the empty stack is nested.** -/
theorem nested_of_scan (h : P.scan [] ts = some []) : P.Nested [] ts := by
  induction hn : ts.length using Nat.strongRecOn generalizing ts with
  | ind n ih =>
    subst hn
    cases ts with
    | nil => exact .nil
    | cons t ts =>
      rw [scan_cons, Option.bind_eq_some_iff] at h
      obtain ⟨stack, hstep, h⟩ := h
      obtain ⟨ha, ⟨j, ho, rfl⟩ | ⟨j, ho, hc, heq⟩ | ⟨ho, hc, rfl⟩⟩ := step_cases hstep
      · obtain ⟨inner, c, rest, rfl, hin, hc, hac, hrest⟩ :=
          exists_closer_of_scan _ (Nat.le_refl _) h
        have hlt : rest.length < (t :: (inner ++ c :: rest)).length := by
          simp only [List.length_cons, List.length_append]
          omega
        exact .pair ho ha hin hc hac (ih _ hlt hrest rfl)
      · simp at heq
      · exact .plain ho hc ha (ih _ (by simp) h rfl)

/-- Tokens that may stand anywhere are read alike under any further open pairs. -/
lemma scan_frame (hts : ∀ t ∈ ts, ∀ ctx, P.admits ctx t = true) (h : P.scan stack ts = some stack')
    (ctx : List κ) : P.scan (stack ++ ctx) ts = some (stack' ++ ctx) := by
  induction ts generalizing stack with
  | nil =>
    cases h
    rfl
  | cons t ts ih =>
    rw [scan_cons, Option.bind_eq_some_iff] at h
    obtain ⟨mid, hstep, h⟩ := h
    have hadmits := hts t (by simp)
    have hmid : P.step (stack ++ ctx) t = some (mid ++ ctx) := by
      obtain ⟨-, ⟨k, ho, rfl⟩ | ⟨k, -, hc, rfl⟩ | ⟨ho, hc, rfl⟩⟩ := step_cases hstep
      · exact step_opens ho (hadmits _)
      · exact step_closes hc (hadmits _)
      · exact step_plain ho hc (hadmits _)
    rw [scan_cons, hmid]
    exact ih (fun u hu => hts u (by simp [hu])) h

end Scan

/-! ## Partners -/

variable (P : Pairing τ κ)

/-- A token, read against the openers that wait for a closer, innermost first, and the pairs met so
far. -/
def matchStep (state : List τ × List (τ × τ)) (t : τ) : List τ × List (τ × τ) :=
  if (P.opens t).isSome then (t :: state.1, state.2)
  else if (P.closes t).isSome then
    match state.1 with
    | [] => state
    | o :: rest => (rest, state.2 ++ [(o, t)])
  else state

/-- The openers of a sequence that wait for a closer, innermost first, and its pairs, in the order
of their closers. -/
def matching (ts : List τ) : List τ × List (τ × τ) := ts.foldl P.matchStep ([], [])

variable {P}

lemma matching_append_singleton (ts : List τ) (t : τ) :
    P.matching (ts ++ [t]) = P.matchStep (P.matching ts) t := by simp [matching]

lemma matchStep_opens (h : P.opens t = some k) : P.matchStep state t = (t :: state.1, state.2) := by
  simp [matchStep, h]

lemma matchStep_closes {stack : List τ} {pairs : List (τ × τ)} {o : τ} (h : P.closes t = some k) :
    P.matchStep (o :: stack, pairs) t = (stack, pairs ++ [(o, t)]) := by
  simp [matchStep, h, P.opens_eq_none h]

lemma matchStep_plain (ho : P.opens t = none) (hc : P.closes t = none) :
    P.matchStep state t = state := by simp [matchStep, ho, hc]

/-- Tokens that neither open nor close are not seen. -/
lemma matching_filter {keep : τ → Bool}
    (h : ∀ t ∈ ts, keep t = false → P.opens t = none ∧ P.closes t = none) :
    P.matching (ts.filter keep) = P.matching ts := by
  suffices hgen : ∀ state,
    (ts.filter keep).foldl P.matchStep state = ts.foldl P.matchStep state from hgen _
  intro state
  induction ts generalizing state with
  | nil => rfl
  | cons t ts ih =>
    have hrest := ih fun u hu => h u (by simp [hu])
    cases hk : keep t with
    | true => simp [hk, hrest]
    | false =>
      obtain ⟨ho, hc⟩ := h t (by simp) hk
      simp [hk, hrest, matchStep_plain ho hc]

end Pairing

end Cambra
