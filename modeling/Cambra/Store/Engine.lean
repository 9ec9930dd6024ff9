import Cambra.Lib.OrdMap

/-!
# The commit engine

The pure serialization engine behind every store of the interpreter: per key a changelog of the
positions that wrote it, a seed for the value before any change, the decided frontier and the
positions decided so far.

* `CommitEngine` is the record of `commit_operator.rs`, with `attempt` (backward validation and
  allocate-on-commit), `step` (the position-driven induction step), `readAsOf` and
  `gcReleasedPrefix`.
* `EngineOp`, `CommitEngine.apply` and `CommitEngine.run` are a run of the engine: any
  interleaving of the three mutating operations, with the outcome of each attempt.
* `CommitEngine.WF` is the invariant the source states as `debug_check`; `run_debug_check` shows
  that no run leaves it.

Keys, values and positions are arbitrary types: an engine only compares keys for equality and
orders positions.  A hash map that is only looked up is a function into `Option`, and a read or
write set is the list of its entries.  `none` from an operation is a panic of the source.
-/

namespace Cambra

open Option

/-- The commit clock: the tick decided from the start, and the tick that follows a given one.
`next` is `none` on a position that is no tick of the clock, where the source panics. -/
class CommitClock (π : Type*) [LinearOrder π] where
  /-- The least tick, the state after no transaction. -/
  start : π
  /-- The tick a commit on top of a given watermark allocates. -/
  next : π → Option π
  /-- The clock runs forward. -/
  lt_next : ∀ {p q : π}, next p = some q → p < q

/-- The unsigned integer clock of the transactional store. -/
instance : CommitClock ℕ where
  start := 0
  next n := some (n + 1)
  lt_next h := by
    cases h
    exact Nat.lt_succ_self _

/-- A writer's proposal: the committed prefix it read, what it saw there and what it writes. -/
structure Proposal (κ ν π : Type*) where
  /-- The decided timestamp the writer read at. -/
  snapshot : π
  /-- Keys observed at `snapshot`, with the values seen. -/
  reads : List (κ × ν)
  /-- Keys to update, with their new values. -/
  writes : List (κ × ν)

/-- The outcome of a commit attempt: a valid proposal consumes the next tick, a stale one
consumes nothing. -/
inductive CommitOutcome (π : Type*) where
  | committed (ts : π)
  | stale
  deriving DecidableEq, Repr

/-- The engine's state. -/
structure CommitEngine (κ ν π : Type*) [LinearOrder π] where
  /-- Each key's value before any change. -/
  seed : κ → Option ν
  /-- Each key's changelog; a key never written, or whose changelog was reclaimed, has none. -/
  changes : κ → OrdMap π ν
  /-- The decided frontier: every position at or below it is decided. -/
  decided : Option π
  /-- The positions this engine has decided, ascending. -/
  decidedPositions : List π

namespace CommitEngine

variable {κ ν π : Type*} [DecidableEq κ] [LinearOrder π] (e : CommitEngine κ ν π)

/-! ## Opening an engine -/

/-- A transactional engine holding `init` before any commit, decided at the clock's start. -/
def new [CommitClock π] (init : κ → Option ν) : CommitEngine κ ν π where
  seed := init
  changes _ := .empty
  decided := some CommitClock.start
  decidedPositions := [CommitClock.start]

/-- An induction engine holding `init` before any position, decided through `resumedAfter`. -/
def seededAt (resumedAfter : Option π) (init : κ → Option ν) : CommitEngine κ ν π where
  seed := init
  changes _ := .empty
  decided := resumedAfter
  decidedPositions := []

/-- An engine holding nothing. -/
def unopened : CommitEngine κ ν π := seededAt none (fun _ => none)

/-! ## Reading and writing -/

/-- Whether `t` lies at or below the decided frontier. -/
def isDecided (t : π) : Bool := e.decided.any (t ≤ ·)

/-- The value of `key` as of `t`: its latest write at or below `t`, else its seed; nothing
where `t` is beyond the frontier. -/
def readAsOf (t : π) (key : κ) : Option ν :=
  if e.isDecided t then (((e.changes key).floor t).map Prod.snd).or (e.seed key) else none

/-- The position `key` was last written at. -/
def latestWrite (key : κ) : Option π := (e.changes key).last?.map Prod.fst

/-- Land `writes` at `position`, one entry in each written key's changelog. -/
def writeAt (position : π) (writes : List (κ × ν)) : CommitEngine κ ν π :=
  { e with changes := fun key =>
      match writes.lookup key with
      | some value => (e.changes key).insert position value
      | none => e.changes key }

/-- Decide `position` and land `writes` there: the part `step` and a commit share. -/
def decide (position : π) (writes : List (κ × ν)) : CommitEngine κ ν π := { e with
      decided := some position
      decidedPositions := e.decidedPositions ++ [position] }.writeAt position writes

/-- The induction step: advance the frontier to `position` and record the writes, if any, there.
A position at or below the frontier fails the source's assertion. -/
def step (position : π) (writes : Option (List (κ × ν))) : Option (CommitEngine κ ν π) :=
  if e.decided.all (· < position) then some (e.decide position (writes.getD [])) else none

/-- Whether some key the proposal read was overwritten after its snapshot. -/
def isStale (p : Proposal κ ν π) : Bool :=
  p.reads.any fun r => (e.latestWrite r.1).any (p.snapshot < ·)

/-- Validate a proposal and, if valid, commit it at the next tick.  The engine panics on a valid
proposal when nothing is decided yet, or when the frontier is no tick of the clock.  The three
assertions the source makes about the proposal restrict its callers and change no result. -/
def attempt [CommitClock π] (p : Proposal κ ν π) : Option (CommitEngine κ ν π × CommitOutcome π) :=
  if e.isStale p then some (e, .stale)
  else (e.decided.bind CommitClock.next).map fun c => (e.decide c p.writes, .committed c)

/-! ## Reclaiming the changelog -/

/-- A key's latest write at or below `through`, where a position can still fold back to it: the
key has no write above `through`, or the earliest live position lies below the next one. -/
def carrySource (log : OrdMap π ν) (earliestLive : Option π) (through : π) : Option (π × ν) :=
  let reachable := match log.ceil through with
    | some (next, _) => earliestLive.any (· < next)
    | none => true
  if reachable then log.floor through else none

/-- One key's changelog after a reclaim: the entries above `through` and the carry source. -/
def reclaimLog (log : OrdMap π ν) (earliestLive : Option π) (through : π) : OrdMap π ν :=
  match carrySource log earliestLive through with
  | some (p, v) => (log.retain (through < ·)).insert p v
  | none => log.retain (through < ·)

/-- Reclaim the committed versions at positions at or below `through`. -/
def gcReleasedPrefix (through : π) : CommitEngine κ ν π :=
  -- Read before the domain is trimmed, as in the source.
  let earliestLive := e.decidedPositions.find? (through < ·)
  { e with
      decidedPositions := e.decidedPositions.filter (through < ·)
      changes := fun key => reclaimLog (e.changes key) earliestLive through }

/-! ## Runs -/

end CommitEngine

/-- One mutating operation on an engine. -/
inductive EngineOp (κ ν π : Type*) where
  | attempt (p : Proposal κ ν π)
  | step (position : π) (writes : Option (List (κ × ν)))
  | gc (through : π)

namespace CommitEngine

variable {κ ν π : Type*} [DecidableEq κ] [LinearOrder π] [CommitClock π]

/-- One operation, with the outcomes it returns (one for an attempt, none otherwise). -/
def apply (e : CommitEngine κ ν π) :
    EngineOp κ ν π → Option (CommitEngine κ ν π × List (CommitOutcome π))
  | .attempt p => (e.attempt p).map fun r => (r.1, [r.2])
  | .step position writes => (e.step position writes).map fun e' => (e', [])
  | .gc through => some (e.gcReleasedPrefix through, [])

/-- A run of operations from left to right, with the outcomes of its attempts in order. -/
def run (e : CommitEngine κ ν π) :
    List (EngineOp κ ν π) → Option (CommitEngine κ ν π × List (CommitOutcome π))
  | [] => some (e, [])
  | op :: ops => (e.apply op).bind fun r => (run r.1 ops).map fun s => (s.1, r.2 ++ s.2)

end CommitEngine

/-! ## What an operation can do -/

namespace CommitEngine

variable {κ ν π : Type*} [LinearOrder π] (e : CommitEngine κ ν π) (p : π) (ws : List (κ × ν))

@[simp] lemma gc_seed (u : π) : (e.gcReleasedPrefix u).seed = e.seed := rfl

@[simp] lemma gc_decided (u : π) : (e.gcReleasedPrefix u).decided = e.decided := rfl

variable {e e' : CommitEngine κ ν π} {p u : π} {live : Option π} {log : OrdMap π ν} {x : π × ν}
  {ops : List (EngineOp κ ν π)} {r : CommitEngine κ ν π × List (CommitOutcome π)}

@[simp] lemma mem_gc_decidedPositions :
    p ∈ (e.gcReleasedPrefix u).decidedPositions ↔ p ∈ e.decidedPositions ∧ u < p := by
  simp [gcReleasedPrefix]

/-- A carry source is the latest write of the reclaimed prefix. -/
lemma carrySource_eq_floor (h : carrySource log live u = some x) : log.floor u = some x := by
  simp only [carrySource] at h
  split_ifs at h
  exact h

lemma mem_reclaimLog :
    x ∈ reclaimLog log live u ↔ (x ∈ log ∧ u < x.1) ∨ carrySource log live u = some x := by
  cases hc : carrySource log live u with
  | none => simp [reclaimLog, hc]
  | some y =>
    have hy := (OrdMap.floor_eq_some_iff.1 (carrySource_eq_floor hc)).1
    simp only [reclaimLog, hc, OrdMap.mem_insert, OrdMap.mem_retain, decide_eq_true_eq,
      Option.some.injEq]
    constructor
    · rintro (rfl | ⟨h, -⟩)
      · exact .inr rfl
      · exact .inl h
    · rintro (h | rfl)
      · exact .inr ⟨h, (hy.2.trans_lt h.2).ne'⟩
      · exact .inl rfl

/-- A reclaim invents no change. -/
lemma mem_of_mem_reclaimLog (h : x ∈ reclaimLog log live u) : x ∈ log := by
  rcases mem_reclaimLog.1 h with h | h
  · exact h.1
  · exact (OrdMap.floor_eq_some_iff.1 (carrySource_eq_floor h)).1.1

/-! ## The invariant -/

/-- The invariants the source checks after every operation (`debug_check`). -/
structure WF (e : CommitEngine κ ν π) : Prop where
  /-- The domain ascends. -/
  ascending : e.decidedPositions.Pairwise (· < ·)
  /-- The domain lies within the frontier. -/
  domain_le : ∀ p ∈ e.decidedPositions, ∃ w, e.decided = some w ∧ p ≤ w
  /-- No change lands above the frontier. -/
  changes_le : ∀ key, ∀ x ∈ e.changes key, ∃ w, e.decided = some w ∧ x.1 ≤ w
  /-- A change outside the domain lies below all of it. -/
  stray_lt : ∀ key, ∀ x ∈ e.changes key, x.1 ∉ e.decidedPositions →
    ∀ p ∈ e.decidedPositions, x.1 < p
  /-- Each key has at most one change outside the domain, its carry source. -/
  stray_unique : ∀ key, ∀ x ∈ e.changes key, ∀ y ∈ e.changes key,
    x.1 ∉ e.decidedPositions → y.1 ∉ e.decidedPositions → x = y

namespace WF

lemma seededAt (resumedAfter : Option π) (init : κ → Option ν) :
    (CommitEngine.seededAt resumedAfter init).WF where
  ascending := List.Pairwise.nil
  domain_le := by simp [CommitEngine.seededAt]
  changes_le := by simp [CommitEngine.seededAt]
  stray_lt := by simp [CommitEngine.seededAt]
  stray_unique := by simp [CommitEngine.seededAt]

lemma unopened : (CommitEngine.unopened : CommitEngine κ ν π).WF := seededAt _ _

lemma new [CommitClock π] (init : κ → Option ν) :
    (CommitEngine.new init : CommitEngine κ ν π).WF where
  ascending := List.pairwise_singleton _ _
  domain_le := by simp [CommitEngine.new]
  changes_le := by simp [CommitEngine.new]
  stray_lt := by simp [CommitEngine.new]
  stray_unique := by simp [CommitEngine.new]

lemma gc (he : e.WF) (u : π) : (e.gcReleasedPrefix u).WF := by
  -- What is left outside the trimmed domain: an old stray above the boundary, or the entry the
  -- reclaim itself carried over.
  have hout : ∀ {key x}, x ∈ (e.gcReleasedPrefix u).changes key →
      x.1 ∉ (e.gcReleasedPrefix u).decidedPositions →
      (u < x.1 ∧ x.1 ∉ e.decidedPositions) ∨ (e.changes key).floor u = some x := by
    intro key x hx hxout
    rcases mem_reclaimLog.1 hx with ⟨-, hux⟩ | hc
    · exact .inl ⟨hux, fun hd => hxout (mem_gc_decidedPositions.2 ⟨hd, hux⟩)⟩
    · exact .inr (carrySource_eq_floor hc)
  refine ⟨he.ascending.filter _, ?_, ?_, ?_, ?_⟩
  · intro p hp
    exact he.domain_le p (mem_gc_decidedPositions.1 hp).1
  · intro key x hx
    exact he.changes_le key x (mem_of_mem_reclaimLog hx)
  · intro key x hx hxout p hp
    obtain ⟨hp, hup⟩ := mem_gc_decidedPositions.1 hp
    rcases hout hx hxout with ⟨-, hxd⟩ | hfl
    · exact he.stray_lt key x (mem_of_mem_reclaimLog hx) hxd p hp
    · exact (OrdMap.floor_eq_some_iff.1 hfl).1.2.trans_lt hup
  · -- Two strays above the boundary are one by the old invariant; a stray above the boundary
    -- lies below the whole domain, so an entry beneath it would be a second old stray.
    have hmix : ∀ {key x y}, x ∈ e.changes key → x.1 ∉ e.decidedPositions → u < x.1 →
        (e.changes key).floor u = some y → x = y := by
      intro key x y hx hxd hux hfl
      obtain ⟨⟨hy, hyu⟩, -⟩ := OrdMap.floor_eq_some_iff.1 hfl
      refine he.stray_unique key x hx y hy hxd fun hyd => ?_
      exact absurd (he.stray_lt key x hx hxd y.1 hyd) (not_lt.2 (hyu.trans hux.le))
    intro key x hx y hy hxout hyout
    have hxe := mem_of_mem_reclaimLog hx
    have hye := mem_of_mem_reclaimLog hy
    rcases hout hx hxout with ⟨hux, hxd⟩ | hfx <;> rcases hout hy hyout with ⟨huy, hyd⟩ | hfy
    · exact he.stray_unique key x hxe y hye hxd hyd
    · exact hmix hxe hxd hux hfy
    · exact (hmix hye hyd huy hfx).symm
    · exact mem_unique hfx hfy

end WF

/-! ## Decisions and moves -/

variable [DecidableEq κ]

@[simp] lemma decide_seed : (e.decide p ws).seed = e.seed := rfl

@[simp] lemma decide_decided : (e.decide p ws).decided = some p := rfl

@[simp] lemma decide_decidedPositions :
    (e.decide p ws).decidedPositions = e.decidedPositions ++ [p] := rfl

lemma decide_changes (key : κ) : (e.decide p ws).changes key = match ws.lookup key with
      | some value => (e.changes key).insert p value
      | none => e.changes key := rfl

/-- A change after a decision is an old one or lands at the decided position. -/
lemma mem_decide_changes {ws : List (κ × ν)} {key : κ} (hx : x ∈ (e.decide p ws).changes key) :
    x ∈ e.changes key ∨ x.1 = p := by
  rw [decide_changes] at hx
  cases hw : ws.lookup key with
  | none => exact .inl (by simpa [hw] using hx)
  | some v =>
    have hx' : x = (p, v) ∨ (x ∈ e.changes key ∧ x.1 ≠ p) := by simpa [hw] using hx
    rcases hx' with rfl | ⟨hx', -⟩
    · exact .inr rfl
    · exact .inl hx'

/-- What one operation makes of an engine. -/
inductive Move (e : CommitEngine κ ν π) : CommitEngine κ ν π → Prop where
  /-- A stale attempt changes nothing. -/
  | stay : Move e e
  /-- A commit or an induction step decides a position above the frontier. -/
  | decide (p : π) (ws : List (κ × ν)) (above : ∀ w, e.decided = some w → w < p) :
      Move e (e.decide p ws)
  /-- A reclaim. -/
  | reclaim (u : π) : Move e (e.gcReleasedPrefix u)

lemma step_eq_some_iff {ws : Option (List (κ × ν))} : e.step p ws = some e' ↔
      (∀ w, e.decided = some w → w < p) ∧ e' = e.decide p (ws.getD []) := by
  simp only [step, ite_none_right_eq_some, all_eq_true, decide_eq_true_eq,
    Option.some.injEq, eq_comm (a := e')]

section Clock

variable [CommitClock π]

lemma attempt_eq_some_iff {p : Proposal κ ν π} {r : CommitEngine κ ν π × CommitOutcome π} :
    e.attempt p = some r ↔ (e.isStale p = true ∧ r = (e, .stale)) ∨
      (e.isStale p = false ∧ ∃ w c, e.decided = some w ∧ CommitClock.next w = some c ∧
        r = (e.decide c p.writes, .committed c)) := by
  cases hs : e.isStale p
  · simp only [attempt, hs, Bool.false_eq_true, if_false, map_eq_some_iff,
      bind_eq_some_iff, false_and, true_and, false_or]
    constructor
    · rintro ⟨c, ⟨w, hw, hc⟩, rfl⟩
      exact ⟨w, c, hw, hc, rfl⟩
    · rintro ⟨w, c, hw, hc, rfl⟩
      exact ⟨c, ⟨w, hw, hc⟩, rfl⟩
  · simp [attempt, hs, eq_comm]

/-- A committed proposal lands at the tick after the frontier. -/
lemma Move.of_attempt {p : Proposal κ ν π} {r : CommitEngine κ ν π × CommitOutcome π}
    (h : e.attempt p = some r) : Move e r.1 := by
  rcases attempt_eq_some_iff.1 h with ⟨-, rfl⟩ | ⟨-, w, c, hw, hc, rfl⟩
  · exact .stay
  · refine .decide c p.writes fun w' hw' => ?_
    obtain rfl : w = w' := mem_unique hw hw'
    exact CommitClock.lt_next hc

lemma Move.of_apply {op : EngineOp κ ν π} (h : e.apply op = some r) : Move e r.1 := by
  cases op with
  | attempt p =>
    obtain ⟨r', hr', rfl⟩ := map_eq_some_iff.1 h
    exact Move.of_attempt hr'
  | step p ws =>
    obtain ⟨e', he', rfl⟩ := map_eq_some_iff.1 h
    obtain ⟨habove, rfl⟩ := step_eq_some_iff.1 he'
    exact .decide p _ habove
  | gc u =>
    cases h
    exact .reclaim u

/-- What every operation preserves, a whole run preserves. -/
lemma run_induction {P : CommitEngine κ ν π → Prop} (hmove : ∀ e e', P e → Move e e' → P e')
    (h : e.run ops = some r) (he : P e) : P r.1 := by
  induction ops generalizing e r with
  | nil =>
    cases h
    exact he
  | cons op ops ih =>
    obtain ⟨r₁, h₁, h⟩ := bind_eq_some_iff.1 h
    obtain ⟨r₂, h₂, rfl⟩ := map_eq_some_iff.1 h
    exact ih (r := r₂) h₂ (hmove e r₁.1 he (Move.of_apply h₁))

end Clock

namespace WF

lemma decide (he : e.WF) (ws : List (κ × ν)) (above : ∀ w, e.decided = some w → w < p) :
    (e.decide p ws).WF := by
  have hlt : ∀ q, (∃ w, e.decided = some w ∧ q ≤ w) → q < p := by
    rintro q ⟨w, hw, hq⟩
    exact hq.trans_lt (above w hw)
  -- A change outside the grown domain is an old one, since `p` itself joined the domain.
  have hold : ∀ {key x}, x ∈ (e.decide p ws).changes key → x.1 ∉ e.decidedPositions ++ [p] →
      x ∈ e.changes key ∧ x.1 ∉ e.decidedPositions := by
    intro key x hx hout
    have hout' : x.1 ∉ e.decidedPositions ∧ x.1 ≠ p := by simpa using hout
    exact ⟨(mem_decide_changes hx).resolve_right hout'.2, hout'.1⟩
  refine ⟨?_, ?_, ?_, ?_, ?_⟩
  · refine List.pairwise_append.2 ⟨he.ascending, List.pairwise_singleton _ _, ?_⟩
    intro q hq r hr
    obtain rfl : r = p := by simpa using hr
    exact hlt q (he.domain_le q hq)
  · intro q hq
    rcases List.mem_append.1 hq with hq | hq
    · exact ⟨p, rfl, (hlt q (he.domain_le q hq)).le⟩
    · exact ⟨p, rfl, (List.mem_singleton.1 hq).le⟩
  · intro key x hx
    rcases mem_decide_changes hx with hx | hx
    · exact ⟨p, rfl, (hlt x.1 (he.changes_le key x hx)).le⟩
    · exact ⟨p, rfl, hx.le⟩
  · intro key x hx hout q hq
    obtain ⟨hxe, hxd⟩ := hold hx hout
    rcases List.mem_append.1 hq with hq | hq
    · exact he.stray_lt key x hxe hxd q hq
    · exact (hlt x.1 (he.changes_le key x hxe)).trans_eq (List.mem_singleton.1 hq).symm
  · intro key x hx y hy hxout hyout
    obtain ⟨hx, hxout⟩ := hold hx hxout
    obtain ⟨hy, hyout⟩ := hold hy hyout
    exact he.stray_unique key x hx y hy hxout hyout

lemma move (he : e.WF) (h : Move e e') : e'.WF := by
  cases h with
  | stay => exact he
  | decide p ws above => exact he.decide ws above
  | reclaim u => exact he.gc u

end WF

/-- **No run trips the engine's own check.** -/
theorem run_debug_check [CommitClock π] (he : e.WF) (ops : List (EngineOp κ ν π))
    (h : e.run ops = some r) : r.1.WF :=
  run_induction (fun _ _ he h => he.move h) h he

theorem run_debug_check_reclaimed :
    let e : CommitEngine ℕ ℕ ℕ := new fun _ => some 0
    let ops : List (EngineOp ℕ ℕ ℕ) := [.attempt ⟨0, [], [(0, 7)]⟩, .step 4 none, .gc 1]
    ∃ r, e.run ops = some r ∧ r.1.WF := by
  intro e ops
  exact ⟨_, rfl, run_debug_check (WF.new _) ops rfl⟩

end CommitEngine

end Cambra
