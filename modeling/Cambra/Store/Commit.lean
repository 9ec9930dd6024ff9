import Cambra.Store.Engine
import Mathlib.Data.List.Nodup
import Mathlib.Data.Nat.ModEq

/-!
# The commit producer and its closed keys

`CommitProducer` drains the proposal streams of any number of writers into one `CommitEngine`.
A pull opens the store once every seed has arrived, then takes each writer in a rotating order,
attempts the proposals it has not attempted before (`attemptRows`), and reports whether the store
is terminal and which keys are closed (`StoreReport`).

The results are about whole runs that return, `CommitProducer.run`.  From what one pull does
(`Drained`) follows what a history of pulls keeps (`Hist`), and from that `final_of_contract`: over
deliveries that keep the `WriterContract` a closed key is never written again.  The contract is that
a stream that has called itself complete shows no step it had not shown by then, and that a proposal
writes only keys of its writer's declared footprint; the writers of the transactional store keep it
(`Cambra.Store.Closed`).
-/

namespace Cambra

open List

variable {κ ν : Type*} [DecidableEq κ]

/-- A writer's proposal stream as the commit producer reads it: the absolute step of each row
with its proposal, and whether the stream calls its domain complete. -/
structure ProposalTile (κ ν : Type*) where
  /-- The rows, in column order. -/
  rows : List (ℕ × Proposal κ ν ℕ)
  /-- Whether the domain predicate is `True`. -/
  terminal : Bool

/-- One attempt the producer made, with what the engine answered. -/
structure Attempt (κ ν : Type*) where
  writer : ℕ
  step : ℕ
  proposal : Proposal κ ν ℕ
  outcome : CommitOutcome ℕ

/-- The open store in the middle of a pull. -/
structure Draining (κ ν : Type*) where
  engine : CommitEngine κ ν ℕ
  /-- Per writer, how many steps of its proposal stream have been processed. -/
  consumed : ℕ → ℕ
  /-- Per writer, whether its stream has called itself complete. -/
  writerTerminal : ℕ → Bool
  /-- What this pull has attempted so far. -/
  attempts : List (Attempt κ ν)
  /-- The tiles this pull has read so far, with their writers. -/
  pulled : List (ℕ × ProposalTile κ ν)

/-- Attempt the rows of writer `k` from its cursor `c` on.  A step below the cursor was attempted
on an earlier pull; any other moves the cursor past it, committed or stale. -/
def attemptRows (k : ℕ) : List (ℕ × Proposal κ ν ℕ) → CommitEngine κ ν ℕ → ℕ →
      Option (CommitEngine κ ν ℕ × ℕ × List (Attempt κ ν))
  | [], e, c => some (e, c, [])
  | (step, p) :: rows, e, c =>
    if step < c then attemptRows k rows e c
    else (e.attempt p).bind fun r =>
      (attemptRows k rows r.1 (step + 1)).map fun s => (s.1, s.2.1, ⟨k, step, p, r.2⟩ :: s.2.2)

/-- What a pull of a writer answers. -/
inductive WriterTile (κ ν : Type*) where
  /-- A tile that is no collection. -/
  | scalar
  /-- A collection that is no proposal stream: its codomain is not the record of `snap`, `reads` and
  `writes`, a cell of it is absent, or a step is no natural number. -/
  | malformed
  | stream (tile : ProposalTile κ ν)

/-- Drain one writer.  A tile that is no collection is passed over, and one that is no proposal
stream panics. -/
def drainWriter (d : Draining κ ν) (k : ℕ) : WriterTile κ ν → Option (Draining κ ν)
  | .scalar => some d
  | .malformed => none
  | .stream tile =>
    (attemptRows k tile.rows d.engine (d.consumed k)).map fun r =>
      { engine := r.1
        consumed := Function.update d.consumed k r.2.1
        writerTerminal := Function.update d.writerTerminal k (d.writerTerminal k || tile.terminal)
        attempts := d.attempts ++ r.2.2
        pulled := d.pulled ++ [(k, tile)] }

/-- Drain the writers in the given order. -/
def drainWriters (tiles : ℕ → WriterTile κ ν) : List ℕ → Draining κ ν → Option (Draining κ ν)
  | [], d => some d
  | k :: ks, d => (drainWriter d k (tiles k)).bind (drainWriters tiles ks)

/-- The commit producer's state. -/
structure CommitProducer (κ ν : Type*) where
  /-- The number of writers. -/
  writers : ℕ
  /-- Per writer, the keys it may write. -/
  writerWriteKeys : ℕ → List κ
  /-- The concrete part of the state before any commit. -/
  seed : List (κ × ν)
  /-- The keys whose seed arrives on a stream. -/
  seedKeys : List κ
  consumed : ℕ → ℕ
  writerTerminal : ℕ → Bool
  /-- The store's state, once every seed has arrived. -/
  engine : Option (CommitEngine κ ν ℕ)
  /-- The writer the next drain starts from. -/
  drainStart : ℕ

/-- What the store's output is released by, as the producer tells guards apart. -/
inductive StoreGuard where
  /-- A region of the commit ticks. -/
  | domain (pred : ℕ → Bool)
  | empty
  | universal
  | other

/-- What one pull reports of the store, with what it read and attempted. -/
structure StoreReport (κ ν : Type*) where
  terminal : Bool
  closedKeys : List κ
  pulled : List (ℕ × ProposalTile κ ν)
  attempts : List (Attempt κ ν)

namespace CommitProducer

/-- A producer as it is subscribed, before any pull. -/
def fresh (writers : ℕ) (writerWriteKeys : ℕ → List κ) (seed : List (κ × ν))
    (seedKeys : List κ) : CommitProducer κ ν where
  writers := writers
  writerWriteKeys := writerWriteKeys
  seed := seed
  seedKeys := seedKeys
  consumed _ := 0
  writerTerminal _ := false
  engine := none
  drainStart := 0

/-- Open the store on the pull its whole seed has arrived; `seeds` is what each seed stream
answers on this pull. -/
def openStore (p : CommitProducer κ ν) (seeds : κ → Option ν) : CommitProducer κ ν :=
  match p.engine with
  | some _ => p
  | none =>
    if p.seedKeys.all fun k => (seeds k).isSome then
      { p with
          engine := some (.new fun k => if k ∈ p.seedKeys then seeds k else p.seed.lookup k)
          seed := [] }
    else p

/-- The writers in the order this pull drains them. -/
def drainOrder (p : CommitProducer κ ν) : List ℕ :=
  (List.range p.writers).map fun off => (p.drainStart + off) % p.writers

/-- Whether every writer that may write `key` is terminal. -/
def keyDone (p : CommitProducer κ ν) (key : κ) : Bool :=
  (List.range p.writers).all fun k => p.writerTerminal k || !(p.writerWriteKeys k).contains key

/-- The keys reported closed: each listed key whose writers are all terminal, once. -/
def closedKeys (p : CommitProducer κ ν) : List κ :=
  ((List.range p.writers).flatMap p.writerWriteKeys).foldl
    (fun closed key => if p.keyDone key && !closed.contains key then closed ++ [key] else closed) []

/-- Take a finished drain over into the producer's state, rotate the drain start, and report. -/
def finishDrain (p : CommitProducer κ ν) (d : Draining κ ν) :
    CommitProducer κ ν × StoreReport κ ν :=
  let p' : CommitProducer κ ν :=
    { p with
        engine := some d.engine
        consumed := d.consumed
        writerTerminal := d.writerTerminal
        drainStart := if 0 < p.writers then (p.drainStart + 1) % p.writers else p.drainStart }
  (p', { terminal := (List.range p.writers).all d.writerTerminal
         closedKeys := p'.closedKeys
         pulled := d.pulled
         attempts := d.attempts })

/-- One pull of the store.  A store still waiting for its seed renders unopened and drains
nothing. -/
def drain (p : CommitProducer κ ν) (seeds : κ → Option ν) (tiles : ℕ → WriterTile κ ν) :
    Option (CommitProducer κ ν × StoreReport κ ν) :=
  let p := p.openStore seeds
  match p.engine with
  | none => some (p, ⟨false, [], [], []⟩)
  | some e =>
    (drainWriters tiles p.drainOrder ⟨e, p.consumed, p.writerTerminal, [], []⟩).map p.finishDrain

/-- Reclaim through the end of the prefix of the decided ticks that `pred` covers. -/
def reclaim (p : CommitProducer κ ν) (pred : ℕ → Bool) : CommitProducer κ ν :=
  { p with engine := p.engine.map fun e =>
      match (e.decidedPositions.takeWhile pred).getLast? with
      | some through => e.gcReleasedPrefix through
      | none => e }

/-- A release of the store's output.  A guard of any other shape names nothing the store can
reclaim, and panics. -/
def release (p : CommitProducer κ ν) : StoreGuard → Option (CommitProducer κ ν)
  | .domain pred => some (p.reclaim pred)
  | .empty => some p
  | .universal => some (p.reclaim fun _ => true)
  | .other => none

end CommitProducer

/-- What can happen to a commit producer: a pull with what its seeds and writers answer, or a
release of its output. -/
inductive StoreInput (κ ν : Type*) where
  | pull (seeds : κ → Option ν) (tiles : ℕ → WriterTile κ ν)
  | release (guard : StoreGuard)

namespace CommitProducer

/-- A run of the producer, with the reports of its pulls in order. -/
def run (p : CommitProducer κ ν) :
    List (StoreInput κ ν) → Option (CommitProducer κ ν × List (StoreReport κ ν))
  | [] => some (p, [])
  | .pull seeds tiles :: inputs =>
    (p.drain seeds tiles).bind fun r => (run r.1 inputs).map fun s => (s.1, r.2 :: s.2)
  | .release guard :: inputs => (p.release guard).bind fun p => run p inputs

end CommitProducer

/-! ## What draining does -/

variable {e : CommitEngine κ ν ℕ} {c k : ℕ} {rows : List (ℕ × Proposal κ ν ℕ)} {d d' : Draining κ ν}
  {p : CommitProducer κ ν} {hist : List (StoreReport κ ν)}

lemma attemptRows_skip (h : ∀ x ∈ rows, x.1 < c) (e : CommitEngine κ ν ℕ) :
    attemptRows k rows e c = some (e, c, []) := by
  induction rows with
  | nil => rfl
  | cons row rows ih =>
    rw [attemptRows, if_pos (h row mem_cons_self)]
    exact ih fun x hx => h x (mem_cons_of_mem _ hx)

/-- Attempting rows moves the cursor past every one of them, and attempts only rows at or past
the cursor. -/
lemma attemptRows_spec {r : CommitEngine κ ν ℕ × ℕ × List (Attempt κ ν)}
    (h : attemptRows k rows e c = some r) :
    c ≤ r.2.1 ∧ (∀ x ∈ rows, x.1 < r.2.1) ∧
      ∀ a ∈ r.2.2, a.writer = k ∧ c ≤ a.step ∧ (a.step, a.proposal) ∈ rows := by
  induction rows generalizing e c r with
  | nil =>
    cases h
    simp
  | cons row rows ih =>
    obtain ⟨step, p⟩ := row
    by_cases hlt : step < c
    · rw [attemptRows, if_pos hlt] at h
      obtain ⟨hc, hrows, has⟩ := ih h
      refine ⟨hc, ?_, fun a ha => ?_⟩
      · intro x hx
        rcases List.mem_cons.1 hx with rfl | hx
        · exact hlt.trans_le hc
        · exact hrows x hx
      · obtain ⟨hk, hca, hmem⟩ := has a ha
        exact ⟨hk, hca, mem_cons_of_mem _ hmem⟩
    · rw [attemptRows, if_neg hlt] at h
      obtain ⟨q, -, h⟩ := Option.bind_eq_some_iff.1 h
      obtain ⟨s, hs, rfl⟩ := Option.map_eq_some_iff.1 h
      obtain ⟨hc, hrows, has⟩ := ih hs
      have hcs : c ≤ step := not_lt.1 hlt
      refine ⟨by simp only; omega, ?_, fun a ha => ?_⟩
      · intro x hx
        rcases List.mem_cons.1 hx with rfl | hx
        · exact hc
        · exact hrows x hx
      · rcases List.mem_cons.1 ha with rfl | ha
        · exact ⟨rfl, hcs, mem_cons_self⟩
        · obtain ⟨hk, hca, hmem⟩ := has a ha
          exact ⟨hk, by omega, mem_cons_of_mem _ hmem⟩

/-- What draining does to the store between `d` and `d'`, with `ts` the tiles read and `as` the
attempts made in between. -/
structure Drained (d d' : Draining κ ν) (ts : List (ℕ × ProposalTile κ ν))
    (as : List (Attempt κ ν)) : Prop where
  pulled : d'.pulled = d.pulled ++ ts
  attempts : d'.attempts = d.attempts ++ as
  consumed_le : ∀ k, d.consumed k ≤ d'.consumed k
  /-- Every step shown is behind the cursor afterwards. -/
  shown_lt : ∀ t ∈ ts, ∀ x ∈ t.2.rows, x.1 < d'.consumed t.1
  /-- A writer is terminal afterwards if it was before, or if a tile read in between says so. -/
  terminal_iff : ∀ k, d'.writerTerminal k = true ↔
    d.writerTerminal k = true ∨ ∃ t ∈ ts, t.1 = k ∧ t.2.terminal = true
  /-- Every attempt is a row of a tile read, at or past its writer's cursor. -/
  attempt_new : ∀ a ∈ as, d.consumed a.writer ≤ a.step ∧
    ∃ t ∈ ts, t.1 = a.writer ∧ (a.step, a.proposal) ∈ t.2.rows

namespace Drained

omit [DecidableEq κ] in
lemma refl (d : Draining κ ν) : Drained d d [] [] where
  pulled := by simp
  attempts := by simp
  consumed_le _ := le_rfl
  shown_lt := by simp
  terminal_iff := by simp
  attempt_new := by simp

omit [DecidableEq κ] in
lemma trans {d'' : Draining κ ν} {ts ts' : List (ℕ × ProposalTile κ ν)}
    {as as' : List (Attempt κ ν)} (h : Drained d d' ts as) (h' : Drained d' d'' ts' as') :
    Drained d d'' (ts ++ ts') (as ++ as') where
  pulled := by rw [h'.pulled, h.pulled, append_assoc]
  attempts := by rw [h'.attempts, h.attempts, append_assoc]
  consumed_le k := (h.consumed_le k).trans (h'.consumed_le k)
  shown_lt t ht x hx := by
    rcases mem_append.1 ht with ht | ht
    · exact (h.shown_lt t ht x hx).trans_le (h'.consumed_le t.1)
    · exact h'.shown_lt t ht x hx
  terminal_iff k := by
    rw [h'.terminal_iff, h.terminal_iff]
    simp only [mem_append, or_and_right, exists_or, or_assoc]
  attempt_new a ha := by
    rcases mem_append.1 ha with ha | ha
    · obtain ⟨hc, t, ht, hrow⟩ := h.attempt_new a ha
      exact ⟨hc, t, mem_append_left _ ht, hrow⟩
    · obtain ⟨hc, t, ht, hrow⟩ := h'.attempt_new a ha
      exact ⟨(h.consumed_le a.writer).trans hc, t, mem_append_right _ ht, hrow⟩

end Drained

lemma drainWriter_drained {tile : WriterTile κ ν} (h : drainWriter d k tile = some d') :
    ∃ ts as, Drained d d' ts as ∧ ∀ t ∈ ts, t.1 = k ∧ tile = .stream t.2 := by
  cases tile with
  | scalar =>
    cases h
    exact ⟨[], [], .refl d, by simp⟩
  | malformed => exact nomatch h
  | stream tile =>
    obtain ⟨r, hr, rfl⟩ := Option.map_eq_some_iff.1 h
    obtain ⟨hc, hrows, has⟩ := attemptRows_spec hr
    refine ⟨[(k, tile)], r.2.2, ⟨rfl, rfl, ?_, ?_, ?_, ?_⟩, by simp⟩
    · intro j
      rcases eq_or_ne j k with rfl | hne
      · simpa using hc
      · simp [Function.update_of_ne hne]
    · intro t ht x hx
      obtain rfl := mem_singleton.1 ht
      simpa using hrows x hx
    · intro j
      rcases eq_or_ne j k with rfl | hne
      · simp
      · simp [Function.update_of_ne hne, hne.symm]
    · intro a ha
      obtain ⟨rfl, hca, hrow⟩ := has a ha
      exact ⟨hca, _, mem_singleton.2 rfl, rfl, hrow⟩

lemma drainWriters_drained {tiles : ℕ → WriterTile κ ν} {ks : List ℕ}
    (h : drainWriters tiles ks d = some d') :
    ∃ ts as, Drained d d' ts as ∧ ∀ t ∈ ts, t.1 ∈ ks ∧ tiles t.1 = .stream t.2 := by
  induction ks generalizing d with
  | nil =>
    obtain rfl := Option.some.inj h
    exact ⟨[], [], .refl d, by simp⟩
  | cons k ks ih =>
    obtain ⟨d₁, h₁, h₂⟩ := Option.bind_eq_some_iff.1 h
    obtain ⟨ts₁, as₁, hd₁, hk₁⟩ := drainWriter_drained h₁
    obtain ⟨ts₂, as₂, hd₂, hk₂⟩ := ih h₂
    refine ⟨_, _, hd₁.trans hd₂, fun t ht => ?_⟩
    rcases mem_append.1 ht with ht | ht
    · obtain ⟨rfl, htile⟩ := hk₁ t ht
      exact ⟨mem_cons_self, htile⟩
    · exact ⟨mem_cons_of_mem _ (hk₂ t ht).1, (hk₂ t ht).2⟩

/-! ## Closed keys -/

namespace CommitProducer

variable {key : κ}

lemma keyDone_iff : p.keyDone key = true ↔
    ∀ k < p.writers, key ∈ p.writerWriteKeys k → p.writerTerminal k = true := by
  simp only [keyDone, all_eq_true, mem_range, Bool.or_eq_true, Bool.not_eq_true',
    contains_eq_mem, decide_eq_false_iff_not]
  exact forall₂_congr fun k _ => by tauto

lemma mem_foldl_push (f : κ → Bool) (keys closed : List κ) (key : κ) : key ∈ keys.foldl
      (fun closed key => if f key && !closed.contains key then closed ++ [key] else closed) closed ↔
      key ∈ closed ∨ (key ∈ keys ∧ f key = true) := by
  induction keys generalizing closed with
  | nil => simp
  | cons k keys ih =>
    rw [foldl_cons, ih]
    by_cases hk : f k = true <;> by_cases hc : k ∈ closed <;> simp [hk, hc] <;> grind

/-- A key is reported closed when some writer lists it and every writer that does is terminal. -/
lemma mem_closedKeys : key ∈ p.closedKeys ↔ (∃ k < p.writers, key ∈ p.writerWriteKeys k) ∧
      ∀ k < p.writers, key ∈ p.writerWriteKeys k → p.writerTerminal k = true := by
  rw [closedKeys, mem_foldl_push, keyDone_iff]
  simp

end CommitProducer

/-! ## Histories -/

/-- Some tile of the history calls writer `k`'s stream complete. -/
def TerminalIn (hist : List (StoreReport κ ν)) (k : ℕ) : Prop :=
  ∃ r ∈ hist, ∃ t ∈ r.pulled, t.1 = k ∧ t.2.terminal = true

omit [DecidableEq κ] in
lemma terminalIn_concat {r : StoreReport κ ν} : TerminalIn (hist ++ [r]) k ↔
    TerminalIn hist k ∨ ∃ t ∈ r.pulled, t.1 = k ∧ t.2.terminal = true := by
  simp [TerminalIn, or_and_right, exists_or]

omit [DecidableEq κ] in
lemma TerminalIn.mono {hist' : List (StoreReport κ ν)} (h : TerminalIn hist k)
    (hsub : hist ⊆ hist') : TerminalIn hist' k := by
  obtain ⟨r, hr, ht⟩ := h
  exact ⟨r, hsub hr, ht⟩

/-- What a report says, read against the reports `before` it: with `n` writers of footprints
`keys`, a key is closed when some writer lists it and every one that does has called itself
complete; the store is terminal only when every writer has; and an attempt is of a step beyond
everything its writer had shown. -/
structure ReportSpec (n : ℕ) (keys : ℕ → List κ) (before : List (StoreReport κ ν))
    (r : StoreReport κ ν) : Prop where
  closed_iff : ∀ key, key ∈ r.closedKeys ↔
    (∃ k < n, key ∈ keys k) ∧ ∀ k < n, key ∈ keys k → TerminalIn (before ++ [r]) k
  terminal : r.terminal = true → ∀ k < n, TerminalIn (before ++ [r]) k
  attempt_new : ∀ a ∈ r.attempts, a.writer < n ∧
    (∃ t ∈ r.pulled, t.1 = a.writer ∧ (a.step, a.proposal) ∈ t.2.rows) ∧
    ∀ r₀ ∈ before, ∀ t ∈ r₀.pulled, t.1 = a.writer → ∀ x ∈ t.2.rows, x.1 < a.step

namespace CommitProducer

/-- The producer's cursors and latches tell its history: every step shown is behind its writer's
cursor, and the terminal writers are those whose stream called itself complete. -/
structure Hist (p : CommitProducer κ ν) (hist : List (StoreReport κ ν)) : Prop where
  shown_lt : ∀ r ∈ hist, ∀ t ∈ r.pulled, ∀ x ∈ t.2.rows, x.1 < p.consumed t.1
  terminal_iff : ∀ k, p.writerTerminal k = true ↔ TerminalIn hist k
  /-- Nothing was read before the store opened. -/
  unopened : p.engine = none → ∀ r ∈ hist, r.pulled = []

omit [DecidableEq κ] in
lemma Hist.fresh (n : ℕ) (keys : ℕ → List κ) (seed : List (κ × ν)) (seedKeys : List κ) :
    (fresh n keys seed seedKeys).Hist [] where
  shown_lt := by simp
  terminal_iff := by simp [CommitProducer.fresh, TerminalIn]
  unopened := by simp

/-- Opening the store touches nothing else, and an engine it opens is decided. -/
lemma openStore_spec (p : CommitProducer κ ν) (seeds : κ → Option ν) :
    (p.openStore seeds).writers = p.writers ∧
      (p.openStore seeds).writerWriteKeys = p.writerWriteKeys ∧
      (p.openStore seeds).consumed = p.consumed ∧
      (p.openStore seeds).writerTerminal = p.writerTerminal ∧
      ((p.openStore seeds).engine = p.engine ∨
        p.engine = none ∧ ∃ init, (p.openStore seeds).engine = some (.new init)) := by
  unfold openStore
  cases he : p.engine with
  | some e => simp [he]
  | none =>
    by_cases hs : (p.seedKeys.all fun k => (seeds k).isSome) = true
    · rw [if_pos hs]
      exact ⟨rfl, rfl, rfl, rfl, .inr ⟨rfl, _, rfl⟩⟩
    · rw [if_neg hs]
      exact ⟨rfl, rfl, rfl, rfl, .inl he⟩

lemma Hist.openStore (h : p.Hist hist) (seeds : κ → Option ν) : (p.openStore seeds).Hist hist := by
  obtain ⟨-, -, hc, ht, he⟩ := p.openStore_spec seeds
  refine ⟨hc ▸ h.shown_lt, ht ▸ h.terminal_iff, fun hnone => ?_⟩
  rcases he with he | ⟨-, init, he⟩
  · exact h.unopened (he.symm.trans hnone)
  · simp [he] at hnone

omit [DecidableEq κ] in
lemma mem_drainOrder (h : k ∈ p.drainOrder) : k < p.writers := by
  obtain ⟨off, hoff, rfl⟩ := mem_map.1 h
  exact Nat.mod_lt _ (Nat.zero_lt_of_lt (mem_range.1 hoff))

omit [DecidableEq κ] in
lemma nodup_drainOrder (p : CommitProducer κ ν) : p.drainOrder.Nodup := by
  refine List.Nodup.map_on (fun a ha b hb heq => ?_) nodup_range
  exact (Nat.ModEq.add_left_cancel' p.drainStart heq).eq_of_lt_of_lt (mem_range.1 ha)
    (mem_range.1 hb)

/-- A pull that returns keeps the history invariant and reports what its history says. -/
lemma Hist.drain (h : p.Hist hist) {seeds : κ → Option ν} {tiles : ℕ → WriterTile κ ν}
    {p' : CommitProducer κ ν} {r : StoreReport κ ν} (hp : p.drain seeds tiles = some (p', r)) :
    p'.Hist (hist ++ [r]) ∧ p'.writers = p.writers ∧ p'.writerWriteKeys = p.writerWriteKeys ∧
      ReportSpec p.writers p.writerWriteKeys hist r := by
  obtain ⟨hn, hkeys, -, -, -⟩ := p.openStore_spec seeds
  have hopen := h.openStore seeds
  rw [← hn, ← hkeys]
  simp only [CommitProducer.drain] at hp
  generalize p.openStore seeds = q at hopen hp
  cases he : q.engine with
  | none =>
    -- Still waiting for a seed: nothing is read, attempted or closed.
    have hunread := hopen.unopened he
    have hnone : ∀ k, ¬ TerminalIn hist k := by
      rintro k ⟨r, hr, t, ht, -⟩
      simp [hunread r hr] at ht
    simp only [he] at hp
    cases hp
    refine ⟨⟨?_, ?_, ?_⟩, rfl, rfl, ?_, by simp, by simp⟩
    · exact forall_mem_append.2 ⟨hopen.shown_lt, by simp⟩
    · simpa [terminalIn_concat] using hopen.terminal_iff
    · exact fun _ => forall_mem_append.2 ⟨hunread, by simp⟩
    · simp only [terminalIn_concat, hnone]
      intro key
      exact ⟨by simp, fun ⟨⟨k, hk, hkey⟩, hall⟩ => by simpa using hall k hk hkey⟩
  | some e =>
    simp only [he] at hp
    obtain ⟨d, hd, hfin⟩ := Option.map_eq_some_iff.1 hp
    obtain ⟨ts, as, hdr, hks⟩ := drainWriters_drained hd
    have hpulled : (q.finishDrain d).2.pulled = ts := hdr.pulled
    have hattempts : (q.finishDrain d).2.attempts = as := hdr.attempts
    obtain ⟨rfl, rfl⟩ : p' = (q.finishDrain d).1 ∧ r = (q.finishDrain d).2 := by simp [hfin]
    -- A writer's latch after the drain is what the history with this report says.
    have hterm : ∀ k, d.writerTerminal k = true ↔
        TerminalIn (hist ++ [(q.finishDrain d).2]) k := by
      intro k
      rw [hdr.terminal_iff, hopen.terminal_iff, terminalIn_concat, hpulled]
    refine ⟨⟨?_, hterm, by simp [finishDrain]⟩, rfl, rfl, ?_, ?_, ?_⟩
    · refine forall_mem_append.2 ⟨fun r hr t ht x hx => ?_, forall_mem_singleton.2 ?_⟩
      · exact (hopen.shown_lt r hr t ht x hx).trans_le (hdr.consumed_le t.1)
      · exact hpulled ▸ hdr.shown_lt
    · intro key
      exact mem_closedKeys.trans (and_congr Iff.rfl
        (forall₂_congr fun k _ => imp_congr Iff.rfl (hterm k)))
    · intro hall k hk
      exact (hterm k).1 (all_eq_true.1 hall k (mem_range.2 hk))
    · intro a ha
      obtain ⟨hc, t, ht, hk, hrow⟩ := hdr.attempt_new a (hattempts ▸ ha)
      refine ⟨hk ▸ mem_drainOrder (hks t ht).1, ⟨t, hpulled.symm ▸ ht, hk, hrow⟩, ?_⟩
      intro r₀ hr₀ t₀ ht₀ hk₀ x hx
      exact (hk₀ ▸ hopen.shown_lt r₀ hr₀ t₀ ht₀ x hx).trans_le hc

omit [DecidableEq κ] in
lemma Hist.reclaim (h : p.Hist hist) (pred : ℕ → Bool) : (p.reclaim pred).Hist hist :=
  ⟨h.shown_lt, h.terminal_iff, fun hnone => h.unopened (Option.map_eq_none_iff.1 hnone)⟩

omit [DecidableEq κ] in
/-- A release that returns reclaims a region, or does nothing. -/
lemma release_cases {guard : StoreGuard} {p' : CommitProducer κ ν}
    (h : p.release guard = some p') : p' = p ∨ ∃ pred, p' = p.reclaim pred := by
  cases guard with
  | domain pred => exact .inr ⟨pred, (Option.some.inj h).symm⟩
  | empty => exact .inl (Option.some.inj h).symm
  | universal => exact .inr ⟨_, (Option.some.inj h).symm⟩
  | other => exact nomatch h

/-- In a run that returns, each report says what its history says. -/
lemma Hist.run (h : p.Hist hist) {inputs : List (StoreInput κ ν)} {q : CommitProducer κ ν}
    {rs : List (StoreReport κ ν)} (hrun : p.run inputs = some (q, rs)) :
    ∀ pre r post, rs = pre ++ r :: post →
      ReportSpec p.writers p.writerWriteKeys (hist ++ pre) r := by
  induction inputs generalizing p hist rs with
  | nil =>
    cases hrun
    simp
  | cons input inputs ih =>
    cases input with
    | pull seeds tiles =>
      obtain ⟨⟨p₁, r₁⟩, hp₁, hrest⟩ := Option.bind_eq_some_iff.1 hrun
      obtain ⟨⟨q', rs⟩, hq, heq⟩ := Option.map_eq_some_iff.1 hrest
      cases heq
      obtain ⟨hh₁, hn, hkeys, hr₁⟩ := h.drain hp₁
      intro pre r post hsplit
      cases pre with
      | nil =>
        obtain ⟨rfl, -⟩ := List.cons.inj hsplit
        simpa using hr₁
      | cons r₀ pre =>
        obtain ⟨rfl, htail⟩ := List.cons.inj hsplit
        simpa [hn, hkeys] using ih hh₁ hq pre r post htail
    | release guard =>
      obtain ⟨p₁, hp₁, hrest⟩ := Option.bind_eq_some_iff.1 hrun
      rcases release_cases hp₁ with rfl | ⟨pred, rfl⟩
      · exact ih h hrest
      · exact ih (h.reclaim pred) hrest

end CommitProducer

/-! ## The contract of the writers, and finality -/

/-- What the deliveries a run reads must keep. -/
structure WriterContract (keys : ℕ → List κ) (reports : List (StoreReport κ ν)) : Prop where
  /-- A stream that has called itself complete later shows only steps it had shown by then. -/
  complete : ∀ pre r post, reports = pre ++ r :: post → ∀ t ∈ r.pulled, t.2.terminal = true →
    ∀ r' ∈ post, ∀ t' ∈ r'.pulled, t'.1 = t.1 → ∀ x ∈ t'.2.rows,
      ∃ q ∈ pre ++ [r], ∃ u ∈ q.pulled, u.1 = t.1 ∧ ∃ y ∈ u.2.rows, y.1 = x.1
  /-- A proposal writes only keys of its writer's footprint. -/
  footprint : ∀ r ∈ reports, ∀ t ∈ r.pulled, ∀ x ∈ t.2.rows, ∀ w ∈ x.2.writes, w.1 ∈ keys t.1

/-- **A commit never lands on a key reported final**, over deliveries that keep the contract; and
a terminal report is one in which every writer has finished. -/
lemma CommitProducer.final_of_contract {n : ℕ} {keys : ℕ → List κ} {seed : List (κ × ν)}
    {seedKeys : List κ} {inputs : List (StoreInput κ ν)} {q : CommitProducer κ ν}
    {reports : List (StoreReport κ ν)}
    (hrun : (CommitProducer.fresh n keys seed seedKeys).run inputs = some (q, reports))
    (hcontract : WriterContract keys reports) {pre post : List (StoreReport κ ν)}
    {r : StoreReport κ ν} (hsplit : reports = pre ++ r :: post) :
    (∀ key ∈ r.closedKeys, (∃ k < n, key ∈ keys k) ∧ ∀ r' ∈ post, key ∈ r'.closedKeys ∧
        ∀ a ∈ r'.attempts, ∀ ts, a.outcome = .committed ts → key ∉ a.proposal.writes.map Prod.fst) ∧
      (r.terminal = true → (∀ k < n, TerminalIn (pre ++ [r]) k) ∧
        ∀ key, (∃ k < n, key ∈ keys k) → key ∈ r.closedKeys) := by
  have hspec := (CommitProducer.Hist.fresh n keys seed seedKeys).run hrun
  simp only [nil_append] at hspec
  refine ⟨?_, ?_⟩
  · intro key hkey
    obtain ⟨hlisted, hdone⟩ := ((hspec pre r post hsplit).closed_iff key).1 hkey
    refine ⟨hlisted, fun r' hr' => ?_⟩
    obtain ⟨mid, post', rfl⟩ := append_of_mem hr'
    have hsplit' : reports = (pre ++ r :: mid) ++ r' :: post' := by simp [hsplit]
    have hr'spec := hspec _ r' post' hsplit'
    have hsub : pre ++ [r] ⊆ pre ++ r :: mid := by simp
    refine ⟨(hr'spec.closed_iff key).2 ⟨hlisted, fun k hk hl => (hdone k hk hl).mono ?_⟩, ?_⟩
    · exact List.Subset.trans hsub (subset_append_left _ _)
    -- The attempt's writer lists the key, so it had called itself complete; its step was then
    -- shown by that time, but an attempt is of a step beyond everything shown.
    intro a ha ts _ hmem
    obtain ⟨hlt, ⟨t, ht, htw, hrow⟩, hbeyond⟩ := hr'spec.attempt_new a ha
    obtain ⟨w, hw, rfl⟩ := mem_map.1 hmem
    have hr'mem : r' ∈ reports := hsplit' ▸ by simp
    have hfoot : w.1 ∈ keys a.writer := htw ▸ hcontract.footprint r' hr'mem t ht _ hrow w hw
    obtain ⟨r₀, hr₀, t₀, ht₀, ht₀w, hterm⟩ := hdone a.writer hlt hfoot
    obtain ⟨pre₀, post₀, hsplit₀⟩ := append_of_mem hr₀
    have hsplit₁ : reports = pre₀ ++ r₀ :: (post₀ ++ (mid ++ r' :: post')) := by
      calc reports = (pre ++ [r]) ++ (mid ++ r' :: post') := by simp [hsplit]
        _ = pre₀ ++ r₀ :: (post₀ ++ (mid ++ r' :: post')) := by simp [hsplit₀]
    obtain ⟨q', hq', u, hu, huw, y, hy, hyx⟩ := hcontract.complete pre₀ r₀ _ hsplit₁ t₀ ht₀ hterm
      r' (by simp) t ht (htw.trans ht₀w.symm) _ hrow
    have hq'mem : q' ∈ pre ++ r :: mid := by
      refine hsub (hsplit₀ ▸ ?_)
      have hq' : q' ∈ pre₀ ∨ q' = r₀ := by simpa using hq'
      simp [← or_assoc, hq']
    have hlt' := hbeyond q' hq'mem u hu (huw.trans ht₀w) y hy
    simp only at hyx
    omega
  · intro hterm
    have hall := (hspec pre r post hsplit).terminal hterm
    exact ⟨hall, fun key hlisted => ((hspec pre r post hsplit).closed_iff key).2
      ⟨hlisted, fun k hk _ => hall k hk⟩⟩

end Cambra
