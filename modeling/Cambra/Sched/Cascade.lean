import Cambra.Sched.Notify
import Mathlib.Algebra.Ring.Nat
import Mathlib.Data.Fintype.Card
import Mathlib.Data.Prod.Lex
import Mathlib.Order.WellFounded

/-!
# Cascades end

A cascade is a notification, or a pull, with everything it calls.  A call it makes uses up a clear
gate or is a pull, and the work of the calls in progress is finite, so a cascade can go on only by
pulling: `State.measure` orders the pulls that are left, the clear gates and the work
lexicographically.

## Main results

* `wakeups_kept`: along every run no wakeup is lost, a gate passes at most one notification between
  two pulls, and a cascade that goes on forever pulls forever.
* `drain_empties_queue`: while a drain is in progress, what it has still to deliver is in no queue.
-/

namespace Cambra.Sched

variable {Op : Type*} [DecidableEq Op]

namespace State

section Cascades

variable [Fintype Op] {s : State Op} {v : Op} {does : List (Action Op)}

/-- The gates a notification could pass. -/
def clearGates (s : State Op) : ℕ := (Finset.univ.filter fun v => (s.gate v).isSet = false).card

/-- What the calls in progress have still to do. -/
def work (s : State Op) : ℕ := (s.stack.map fun frame => frame.rest.length + 1).sum

lemma clearGates_set {s' : State Op} (hclear : s.gate v = .flag false)
    (hgate : s'.gate = Function.update s.gate v (.flag true)) : s'.clearGates < s.clearGates := by
  refine Finset.card_lt_card (Finset.ssubset_iff_subset_ne.mpr ⟨fun w hw => ?_, fun heq => ?_⟩)
  · simp only [Finset.mem_filter, Finset.mem_univ, true_and, hgate, Function.update_apply] at hw ⊢
    split_ifs at hw
    · simp at hw
    · exact hw
  · have hmem : v ∈ Finset.univ.filter fun w => (s.gate w).isSet = false := by simp [hclear]
    rw [← heq] at hmem
    simp [hgate] at hmem

/-- The state after an action of a cascade, against the state before: there was one more pull, or a
gate was used up, or nothing was called. -/
inductive Spends (s s' : State Op) : Prop
  | pull (h : s'.pullCount = s.pullCount + 1)
  | gate (hpulls : s'.pullCount = s.pullCount) (h : s'.clearGates < s.clearGates)
  | idle (hpulls : s'.pullCount = s.pullCount) (hgates : s'.clearGates = s.clearGates)
      (hstack : s'.stack = s.stack)

lemma notifyShared_spends (h : s.Gated v) : Spends s (s.notifyShared v does) := by
  obtain ⟨set, hset⟩ := h.flag
  cases set with
  | true =>
    rw [notifyShared_of_set hset]
    exact .idle rfl rfl rfl
  | false =>
    rw [notifyShared_of_clear hset]
    exact .gate (by simp [pullCount]) (clearGates_set hset rfl)

lemma Kept.perform_spends (h : s.Kept) (does : List (Action Op)) (a : Action Op) :
    Spends s (s.perform does a) := by
  cases a with
  | announce v =>
    -- the announcement itself is no pull and uses no gate
    have hlog : ∀ s' : State Op, Spends { s with trace := .announced v :: s.trace } s' →
        Spends s s' := by
      have hcount : ({ s with trace := .announced v :: s.trace } : State Op).pullCount =
          s.pullCount := by simp [pullCount]
      rintro s' (hp | ⟨hp, hg⟩ | ⟨hp, hg, hs⟩)
      · exact .pull (hcount ▸ hp)
      · exact .gate (hcount ▸ hp) hg
      · exact .idle (hcount ▸ hp) hg hs
    refine hlog _ ?_
    show Spends _ (forward _ v does)
    rw [forward]
    split_ifs
    · exact notifyShared_spends ((h v).1.log rfl rfl (by simp) (by simp))
    · exact .idle rfl rfl rfl
    · exact .idle rfl rfl rfl
  | pull v => exact .pull (by simp [State.perform, State.pull, pullCount])
  | request | requestPull => exact .idle rfl rfl rfl

/-- The pulls that are left of `n`, then the gates a notification can pass, then the work. -/
def measure (n : ℕ) (s : State Op) : ℕ ×ₗ ℕ ×ₗ ℕ :=
  toLex (n - s.pullCount, toLex (s.clearGates, s.work))

/-- **A step of a cascade that does not exceed the pulls uses something up.** -/
lemma Cascades.measure_lt {s' : State Op} (h : s.Kept) (hc : s.Cascades s') {n : ℕ}
    (hn : s'.pullCount ≤ n) : measure n s' < measure n s := by
  rcases hc with ⟨does, hstep⟩ | hstep
  · rw [State.step] at hstep
    split at hstep
    · cases hstep
    case _ frame outer hstack =>
      split at hstep
      · cases hstep
      case _ a rest hrest =>
        cases hstep
        have hkept : ({ s with stack := frame.advance :: outer } : State Op).Kept :=
          h.congr rfl rfl fun _ => id
        have hwork : ({ s with stack := frame.advance :: outer } : State Op).work < s.work := by
          have hadvance : frame.advance.rest.length < frame.rest.length := by
            cases frame <;> simp_all [Frame.advance, Frame.rest]
          simp only [work, hstack, List.map_cons, List.sum_cons]
          omega
        rcases hkept.perform_spends does a with hp | ⟨hp, hg⟩ | ⟨hp, hg, hs⟩
        · have hcount : ({ s with stack := frame.advance :: outer } : State Op).pullCount =
              s.pullCount := rfl
          exact Prod.Lex.toLex_lt_toLex.mpr (.inl (by omega))
        · refine Prod.Lex.toLex_lt_toLex.mpr (.inr ⟨by rw [hp]; rfl, ?_⟩)
          exact Prod.Lex.toLex_lt_toLex.mpr (.inl hg)
        · refine Prod.Lex.toLex_lt_toLex.mpr (.inr ⟨by rw [hp]; rfl, ?_⟩)
          refine Prod.Lex.toLex_lt_toLex.mpr (.inr ⟨hg, ?_⟩)
          rw [work, hs]
          exact hwork
  · rw [State.step] at hstep
    split at hstep
    · cases hstep
    case _ frame outer hstack =>
      split_ifs at hstep
      cases hstep
      refine Prod.Lex.toLex_lt_toLex.mpr (.inr ⟨rfl, Prod.Lex.toLex_lt_toLex.mpr (.inr ⟨rfl, ?_⟩)⟩)
      simp only [work, hstack, List.map_cons, List.sum_cons]
      omega

omit [Fintype Op] in
lemma Kept.cascades {s' : State Op} (h : s.Kept) (hc : s.Cascades s') : s'.Kept := by
  rcases hc with ⟨does, hstep⟩ | hstep
  · exact h.step hstep
  · exact h.step hstep

/-- **A cascade that goes on forever pulls forever.** -/
theorem Kept.pulls_unbounded (path : ℕ → State Op) (h : (path 0).Kept)
    (hpath : ∀ k, (path k).Cascades (path (k + 1))) (n : ℕ) : ∃ k, n < (path k).pullCount := by
  have hkept : ∀ k, (path k).Kept := by
    intro k
    induction k with
    | zero => exact h
    | succ k ih => exact ih.cascades (hpath k)
  by_contra hbound
  have hle : ∀ k, (path k).pullCount ≤ n := fun k => not_lt.mp fun hlt => hbound ⟨k, hlt⟩
  obtain ⟨k, hk⟩ := WellFounded.not_rel_apply_succ
    (r := fun a b : ℕ ×ₗ ℕ ×ₗ ℕ => a < b) (fun k => measure n (path k))
  exact hk (Cascades.measure_lt (hkept k) (hpath k) (hle (k + 1)))

omit [Fintype Op] in
/-- A cascade goes on until its calls have returned. -/
lemma exists_cascades (h : s.stack ≠ []) : ∃ s', s.Cascades s' := by
  obtain ⟨frame, outer, hstack⟩ := List.exists_cons_of_ne_nil h
  cases hrest : frame.rest with
  | nil => exact ⟨{ s with stack := outer }, .inr (by simp [State.step, hstack, hrest])⟩
  | cons a rest => exact ⟨_, .inl ⟨[], by simp only [State.step, hstack, hrest]; rfl⟩⟩

end Cascades

end State

open State

/-- **No wakeup is lost and no cascade runs forever.**  After any moves: an operator to which a
change was announced since its last pull has had a notification passed to its consumer since that
pull, or a wakeup for it waits in the queue or in the drain in progress; between two notifications
its gate passed, the operator was pulled; and a cascade goes on until its calls have returned, which
it fails to reach only if it pulls more often than any number. -/
theorem wakeups_kept [Fintype Op] {moves : List (Move Op)} {s : State Op}
    (hs : run moves = some s) :
    (∀ v, .announced v ∈ s.sincePull v →
      .passed v ∈ s.sincePull v ∨ v ∈ s.wakeups.waiting ∨ v ∈ s.draining) ∧
    (∀ v newer between older, s.trace = newer ++ .passed v :: between ++ .passed v :: older →
      .pulled v ∈ between) ∧
    (s.stack ≠ [] → ∃ s', s.Cascades s') ∧
    ∀ path : ℕ → State Op, path 0 = s → (∀ k, (path k).Cascades (path (k + 1))) →
      ∀ n, ∃ k, n < (path k).pullCount := by
  have hkept := kept_run hs
  refine ⟨fun v => (hkept v).2, fun v => (hkept v).1.once, exists_cascades, ?_⟩
  intro path hstart hpath n
  exact Kept.pulls_unbounded path (hstart ▸ hkept) hpath n

/-- Two operators, each of which pulls itself and is announced a change while its consumer runs;
then a drain that has woken the first one. -/
def drainTwo : List (Move Bool) :=
  [.act (.announce false) [.pull false, .announce false], .next [], .returns, .next [], .returns,
    .act (.announce true) [.pull true, .announce true], .next [], .returns, .next [], .returns,
    .poll [], .take, .deliver []]

theorem wakeups_kept_drainTwo : ∃ s, run drainTwo = some s ∧ .announced true ∈ s.sincePull true ∧
    (.passed true ∈ s.sincePull true ∨ true ∈ s.wakeups.waiting ∨ true ∈ s.draining) :=
  ⟨_, rfl, by decide, (wakeups_kept (rfl : run drainTwo = some _)).1 true (by decide)⟩

/-- **A drain takes the queue as a whole.**  While it delivers, a change announced to an operator
since its last pull can be neither passed on nor queued for the next drain. -/
theorem drain_empties_queue : ∃ s, run drainTwo = some s ∧ .announced true ∈ s.sincePull true ∧
    .passed true ∉ s.sincePull true ∧ true ∉ s.wakeups.waiting :=
  ⟨_, rfl, by decide, by decide, by decide⟩

end Cambra.Sched
