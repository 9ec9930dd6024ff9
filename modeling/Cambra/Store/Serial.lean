import Cambra.Store.Reclaim
import Cambra.Store.Site

/-!
# Serializability of the transactional store

`TxnSystem` composes the commit producer with any number of transaction sites.  A pull takes each
site in the producer's drain order: the site's writer pulls its inputs against the tile the store's
cyclic fan-out has cached, the producer drains its proposals, and each commit is released back to
the writer.  The environment chooses, at every pull, what each source shows, how the body pulls and
releases its slot and whether its decision is ready (`SitePull`), when the seeds arrive, and between
pulls what the store's consumers release.

The trace lists what became of each item: a commit at a tick, or a finish without one.  The store
it describes is `storeAt`, the fold of the commits' write sets over the seed.  `TxnInv` relates the
engine, the sites and the trace: the engine's frontier counts the commits and each key was last
written by the last commit that names it (`Tracks`), every row a drive emitted was built from the
store at its frontier (`RowOk`), and every event is right against the events before it
(`FinishOk`).  It holds along every run whose sources deliver in order, which is
`transactions_serializable`.  A source that delivers an item below one already finished loses it
(`late_item_passed`): the drive's cursor is past it, and nothing in the drive waits for it.
-/

namespace Cambra

open List

variable {κ ν P α : Type*} [DecidableEq κ]

/-! ## The store a sequence of commits describes -/

/-- The store after the given commits, each a tick with its write set. -/
def serialStore (seed : κ → Option ν) (cs : List (ℕ × List (κ × ν))) : κ → Option ν :=
  cs.foldl (fun store c key => (c.2.lookup key).or (store key)) seed

/-- The tick and value of the last write to `key`. -/
def lastWrite (cs : List (ℕ × List (κ × ν))) (key : κ) : Option (ℕ × ν) :=
  cs.foldl (fun last c => ((c.2.lookup key).map fun v => (c.1, v)).or last) none

lemma serialStore_concat (seed : κ → Option ν) (cs : List (ℕ × List (κ × ν)))
    (c : ℕ × List (κ × ν)) (key : κ) :
    serialStore seed (cs ++ [c]) key = (c.2.lookup key).or (serialStore seed cs key) := by
  simp [serialStore, foldl_append]

lemma lastWrite_concat (cs : List (ℕ × List (κ × ν))) (c : ℕ × List (κ × ν)) (key : κ) :
    lastWrite (cs ++ [c]) key = ((c.2.lookup key).map fun v => (c.1, v)).or (lastWrite cs key) := by
  simp [lastWrite, foldl_append]

/-- A key's value is that of its last write, or its seed. -/
lemma serialStore_eq (seed : κ → Option ν) (cs : List (ℕ × List (κ × ν))) (key : κ) :
    serialStore seed cs key = ((lastWrite cs key).map Prod.snd).or (seed key) := by
  induction cs using List.reverseRecOn with
  | nil => rfl
  | append_singleton cs c ih =>
    rw [serialStore_concat, lastWrite_concat, ih]
    cases c.2.lookup key <;> rfl

/-- Commits take the ticks from 1 on. -/
def Ticks (cs : List (ℕ × List (κ × ν))) : Prop := cs.map Prod.fst = List.range' 1 cs.length

variable {cs : List (ℕ × List (κ × ν))} {k : ℕ} {trace : List (Finish κ ν P α)}
  {view : StoreView κ ν}

omit [DecidableEq κ] in
lemma ticks_concat {c : ℕ × List (κ × ν)} : Ticks (cs ++ [c]) ↔ Ticks cs ∧ c.1 = cs.length + 1 := by
  simp only [Ticks, map_append, length_append, map_cons, map_nil,
    length_singleton, range'_concat, Nat.one_mul, Nat.add_comm 1]
  constructor
  · intro h
    have := append_inj h (by simp)
    exact ⟨this.1, by simpa using this.2⟩
  · rintro ⟨h, hc⟩
    rw [h, hc]

/-- A key not written after tick `s` holds at the end what it held at `s`. -/
lemma serialStore_take {seed : κ → Option ν} (hcs : Ticks cs) {s : ℕ} {key : κ}
    (h : ∀ p, lastWrite cs key = some p → p.1 ≤ s) :
    serialStore seed (cs.take s) key = serialStore seed cs key := by
  induction cs using List.reverseRecOn with
  | nil => simp
  | append_singleton cs c ih =>
    obtain ⟨hticks, htick⟩ := ticks_concat.1 hcs
    rcases Nat.lt_or_ge s (cs.length + 1) with hs | hs
    · -- The last commit is after `s`, so it does not name the key.
      have hnone : c.2.lookup key = none := by
        by_contra hne
        obtain ⟨v, hv⟩ := Option.ne_none_iff_exists'.1 hne
        have := h (c.1, v) (by simp [lastWrite_concat, hv])
        simp only at this
        omega
      rw [serialStore_concat, hnone, Option.none_or, take_append_of_le_length (by omega)]
      refine ih hticks fun p hp => h p ?_
      simp [lastWrite_concat, hnone, hp]
    · rw [take_of_length_le (by simpa using hs)]

/-- The engine holds the store that the commits describe. -/
structure Tracks (seed : κ → Option ν) (e : CommitEngine κ ν ℕ)
    (cs : List (ℕ × List (κ × ν))) : Prop where
  wf : e.WF
  seed_eq : e.seed = seed
  decided : e.decided = some cs.length
  ticks : Ticks cs
  last_eq : ∀ key, (e.changes key).last? = lastWrite cs key

namespace Tracks

variable {seed : κ → Option ν} {e : CommitEngine κ ν ℕ} {cs : List (ℕ × List (κ × ν))}

lemma new (seed : κ → Option ν) : Tracks seed (CommitEngine.new seed) [] where
  wf := CommitEngine.WF.new seed
  seed_eq := rfl
  decided := rfl
  ticks := rfl
  last_eq _ := rfl

lemma commit (h : Tracks seed e cs) (ws : List (κ × ν)) :
    Tracks seed (e.decide (cs.length + 1) ws) (cs ++ [(cs.length + 1, ws)]) := by
  have habove : ∀ w, e.decided = some w → w < cs.length + 1 := by
    intro w hw
    obtain rfl := Option.mem_unique h.decided hw
    exact Nat.lt_succ_self _
  refine ⟨h.wf.decide ws habove, h.seed_eq, by simp, ticks_concat.2 ⟨h.ticks, rfl⟩, fun key => ?_⟩
  rw [lastWrite_concat, CommitEngine.decide_changes]
  cases hw : ws.lookup key with
  | none => simpa [hw] using h.last_eq key
  | some v =>
    simp only [Option.map_some, Option.some_or]
    refine OrdMap.last?_insert fun x hx => ?_
    obtain ⟨w, hw, hxw⟩ := h.wf.changes_le key x hx
    exact hxw.trans (habove w hw).le

lemma gc (h : Tracks seed e cs) (u : ℕ) : Tracks seed (e.gcReleasedPrefix u) cs where
  __ := h
  wf := h.wf.gc u
  last_eq key := (CommitEngine.last?_reclaimLog _ _ _).trans (h.last_eq key)

/-- The engine reads the commits' store at its frontier. -/
lemma readAsOf (h : Tracks seed e cs) (key : κ) :
    e.readAsOf cs.length key = serialStore seed cs key := by
  have hdec : e.isDecided cs.length = true := by simp [CommitEngine.isDecided, h.decided]
  have hfloor : (e.changes key).floor cs.length = (e.changes key).last? := by
    refine OrdMap.floor_eq_last? fun x hx => ?_
    obtain ⟨w, hw, hxw⟩ := h.wf.changes_le key x hx
    exact hxw.trans_eq (Option.mem_unique hw h.decided)
  rw [CommitEngine.readAsOf, if_pos hdec, hfloor, h.last_eq, h.seed_eq, serialStore_eq]

/-- An attempt of a proposal: stale, or a commit at the next tick of a proposal none of whose read
keys was written after its snapshot. -/
lemma attempt (h : Tracks seed e cs) (p : Proposal κ ν ℕ) : e.attempt p = some (e, .stale) ∨
      (e.attempt p = some (e.decide (cs.length + 1) p.writes, .committed (cs.length + 1)) ∧
        ∀ r ∈ p.reads, serialStore seed (cs.take p.snapshot) r.1 = serialStore seed cs r.1) := by
  cases hs : e.isStale p with
  | true => exact .inl (CommitEngine.attempt_eq_some_iff.2 (.inl ⟨hs, rfl⟩))
  | false =>
    refine .inr ⟨CommitEngine.attempt_eq_some_iff.2
      (.inr ⟨hs, cs.length, cs.length + 1, h.decided, rfl, rfl⟩), fun r hr => ?_⟩
    refine serialStore_take h.ticks fun q hq => ?_
    have hfresh := any_eq_false.1 hs r hr
    simpa [CommitEngine.latestWrite, h.last_eq, hq] using hfresh

end Tracks

/-! ## The composed system -/

/-- The commits of a trace, in order. -/
def commits (trace : List (Finish κ ν P α)) : List (ℕ × List (κ × ν)) :=
  trace.filterMap Finish.commit

/-- The store at tick `tick`, as the trace tells it. -/
def storeAt (seed : κ → Option ν) (trace : List (Finish κ ν P α)) (tick : ℕ) : κ → Option ν :=
  serialStore seed ((commits trace).take tick)

/-- The source positions a site has finished, in the order of the trace. -/
def finishedBy (k : ℕ) (trace : List (Finish κ ν P α)) : List P :=
  (trace.filter (·.site = k)).map Finish.itemPosition

/-- The store with its transaction sites. -/
structure TxnSystem (κ ν P α : Type*) where
  producer : CommitProducer κ ν
  sites : ℕ → SiteState κ ν P α
  /-- The store as the cyclic fan-out's slots read it during the next pull. -/
  cached : StoreView κ ν
  /-- What became of each item so far. -/
  trace : List (Finish κ ν P α)
  /-- What each pull reported. -/
  reports : List (StoreReport κ ν)

/-- The system in the middle of a pull. -/
structure TxnPull (κ ν P α : Type*) where
  store : Draining κ ν
  sites : ℕ → SiteState κ ν P α
  trace : List (Finish κ ν P α)

variable [LinearOrder P]

omit [DecidableEq κ] [LinearOrder P] in
/-- The finish that the commit of the proposal at `step` makes. -/
def SiteState.finishOf (s : SiteState κ ν P α) (k step ts : ℕ) : Option (Finish κ ν P α) :=
  (s.writer.emitted[step - s.writer.committedBase]?).bind fun p =>
    (s.driver.pushed[p.attempt]?).map fun row =>
      ⟨k, row.1.itemPosition, row.1.item, p.snapshot, some (ts, p.writes)⟩

/-- What an attempt's outcome does to the site: a commit is released back to its writer. -/
def land (k : ℕ) (extra : ℕ → Bool) (x : SiteState κ ν P α × List (Finish κ ν P α))
    (a : Attempt κ ν) : SiteState κ ν P α × List (Finish κ ν P α) :=
  match a.outcome with
  | .stale => x
  | .committed ts => (x.1.writerRelease a.step extra, x.2 ++ (x.1.finishOf k a.step ts).toList)

/-- Pull site `k`'s writer, drain its proposals and release its commits. -/
def drainSite (cfg : ℕ → TransactSite κ ν P α) (view : StoreView κ ν) (pulls : ℕ → SitePull P α)
    (x : TxnPull κ ν P α) (k : ℕ) : Option (TxnPull κ ν P α) :=
  let r := (x.sites k).writerGet k (cfg k) view (pulls k)
  (drainWriter x.store k (.stream r.1.writer.render)).map fun d =>
    let landed := (d.attempts.drop x.store.attempts.length).foldl (land k (pulls k).ackExtra)
      (r.1, x.trace ++ r.2)
    ⟨d, Function.update x.sites k landed.1, landed.2⟩

/-- Drain the sites in the given order. -/
def drainSites (cfg : ℕ → TransactSite κ ν P α) (view : StoreView κ ν) (pulls : ℕ → SitePull P α) :
    List ℕ → TxnPull κ ν P α → Option (TxnPull κ ν P α)
  | [], x => some x
  | k :: ks, x => (drainSite cfg view pulls x k).bind (drainSites cfg view pulls ks)

/-- What can happen to the system: a pull of the store, or a release of its output. -/
inductive TxnInput (κ ν P α : Type*) [LinearOrder P] where
  | pull (seeds : κ → Option ν) (pulls : ℕ → SitePull P α)
  | release (guard : StoreGuard)

omit [DecidableEq κ] in
/-- What site `k`'s source shows in the course of a run, in order. -/
def readsOf (k : ℕ) : List (TxnInput κ ν P α) → List (SourceTile P α)
  | [] => []
  | .pull _ pulls :: inputs => (pulls k).reads ++ readsOf k inputs
  | .release _ :: inputs => readsOf k inputs

namespace TxnSystem

/-- The system of `n` sites as it is subscribed. -/
def init (cfg : ℕ → TransactSite κ ν P α) (n : ℕ) (seed : List (κ × ν)) (seedKeys : List κ) :
    TxnSystem κ ν P α where
  producer := .fresh n (fun k => (cfg k).writeKeys) seed seedKeys
  sites k := .fresh (cfg k)
  cached := (CommitEngine.unopened : CommitEngine κ ν ℕ).view
  trace := []
  reports := []

/-- One pull of the store. -/
def pull (cfg : ℕ → TransactSite κ ν P α) (seeds : κ → Option ν) (pulls : ℕ → SitePull P α)
    (s : TxnSystem κ ν P α) : Option (TxnSystem κ ν P α) :=
  let p := s.producer.openStore seeds
  match p.engine with
  | none => some { s with
      producer := p
      cached := (CommitEngine.unopened : CommitEngine κ ν ℕ).view
      reports := s.reports ++ [⟨false, [], [], []⟩] }
  | some e =>
    (drainSites cfg s.cached pulls p.drainOrder
      ⟨⟨e, p.consumed, p.writerTerminal, [], []⟩, s.sites, s.trace⟩).map fun x =>
        { producer := (p.finishDrain x.store).1
          sites := x.sites
          cached := x.store.engine.view
          trace := x.trace
          reports := s.reports ++ [(p.finishDrain x.store).2] }

/-- A run of the system. -/
def run (cfg : ℕ → TransactSite κ ν P α) :
    List (TxnInput κ ν P α) → TxnSystem κ ν P α → Option (TxnSystem κ ν P α)
  | [], s => some s
  | .pull seeds pulls :: inputs, s => (s.pull cfg seeds pulls).bind (run cfg inputs)
  | .release guard :: inputs, s =>
    (s.producer.release guard).bind fun p => run cfg inputs { s with producer := p }

end TxnSystem

/-! ## What a trace must be -/

/-- The snapshot a decision is taken at, for a commit on top of the store `now`: a read key that
held a value at the proposal's snapshot has the value it has now, and any other the item. -/
def TransactSite.snapshotFor (t : TransactSite κ ν P α) (held now : κ → Option ν) (item : α) :
    List ν :=
  t.readKeys.map fun key =>
    if (held key).isSome then (now key).getD (t.standIn item) else t.standIn item

/-- An event is right against the events before it: its decision was taken at a decided snapshot;
a commit takes the next tick and writes what the body decides on the store just before it; an item
passed without a commit was denied there, or granted with nothing to write. -/
structure FinishOk (cfg : ℕ → TransactSite κ ν P α) (n : ℕ) (seed : κ → Option ν)
    (before : List (Finish κ ν P α)) (ev : Finish κ ν P α) : Prop where
  site_lt : ev.site < n
  item_mem : (ev.itemPosition, ev.item) ∈ itemsOf (cfg ev.site).rows
  decided : ev.snapshot ≤ (commits before).length
  committed : ∀ tick writes, ev.commit = some (tick, writes) →
    tick = (commits before).length + 1 ∧ writes ≠ [] ∧
      ∃ d, d = (cfg ev.site).body ((cfg ev.site).snapshotFor (storeAt seed before ev.snapshot)
          (storeAt seed before (tick - 1)) ev.item) ev.item ∧
        d.commit = true ∧ writes = (cfg ev.site).writeSet d
  passed : ev.commit = none → ∃ d, d = (cfg ev.site).body
        ((cfg ev.site).snapIn (storeAt seed before ev.snapshot) ev.item) ev.item ∧
      (d.commit = false ∨ (cfg ev.site).writeSet d = [])

/-- Every event of a trace is right against the events before it. -/
def TraceOk (cfg : ℕ → TransactSite κ ν P α) (n : ℕ) (seed : κ → Option ν)
    (trace : List (Finish κ ν P α)) : Prop :=
  ∀ pre ev post, trace = pre ++ ev :: post → FinishOk cfg n seed pre ev

/-! ## Growing a trace -/

section Trace

omit [DecidableEq κ] [LinearOrder P]

lemma commits_append (trace evs : List (Finish κ ν P α)) :
    commits (trace ++ evs) = commits trace ++ commits evs :=
  filterMap_append

lemma finishedBy_append (k : ℕ) (trace evs : List (Finish κ ν P α)) :
    finishedBy k (trace ++ evs) = finishedBy k trace ++ finishedBy k evs := by simp [finishedBy]

lemma finishedBy_of_ne {j : ℕ} {evs : List (Finish κ ν P α)} (hevs : ∀ ev ∈ evs, ev.site = k)
    (hne : j ≠ k) : finishedBy j evs = [] := by
  have hfil : evs.filter (·.site = j) = [] :=
    filter_eq_nil_iff.2 fun ev hev => by simp [hevs ev hev, hne.symm]
  simp [finishedBy, hfil]

end Trace

omit [LinearOrder P] in
/-- What a trace tells of a decided tick does not change as it grows. -/
lemma storeAt_append {seed : κ → Option ν} {tick : ℕ} (h : tick ≤ (commits trace).length)
    (evs : List (Finish κ ν P α)) : storeAt seed (trace ++ evs) tick = storeAt seed trace tick := by
  rw [storeAt, storeAt, commits_append, take_append_of_le_length h]

omit [LinearOrder P] in
lemma storeAt_length (seed : κ → Option ν) (trace : List (Finish κ ν P α)) :
    storeAt seed trace (commits trace).length = serialStore seed (commits trace) := by
  rw [storeAt, take_length]

lemma traceOk_concat {cfg : ℕ → TransactSite κ ν P α} {n : ℕ} {seed : κ → Option ν}
    {ev : Finish κ ν P α} (h : TraceOk cfg n seed trace) (hev : FinishOk cfg n seed trace ev) :
    TraceOk cfg n seed (trace ++ [ev]) := by
  intro pre e post hsplit
  rcases eq_nil_or_concat post with rfl | ⟨post', z, rfl⟩
  · obtain ⟨rfl, hlast⟩ := append_inj' hsplit rfl
    obtain rfl : ev = e := by simpa using hlast
    exact hev
  · rw [concat_eq_append, ← cons_append, ← append_assoc] at hsplit
    obtain ⟨hinit, -⟩ := append_inj' hsplit rfl
    exact h pre e post' hinit

/-- A row is described by the store at the frontier it was built at. -/
def RowOk (t : TransactSite κ ν P α) (seed : κ → Option ν) (trace : List (Finish κ ν P α))
    (x : DriverRow P α ν × ℕ) : Prop :=
  x.2 ≤ (commits trace).length ∧ x.1.snapshot = t.snapIn (storeAt seed trace x.2) x.1.item

lemma RowOk.append {t : TransactSite κ ν P α} {seed : κ → Option ν} {x : DriverRow P α ν × ℕ}
    (h : RowOk t seed trace x) (evs : List (Finish κ ν P α)) : RowOk t seed (trace ++ evs) x := by
  refine ⟨?_, ?_⟩
  · rw [commits_append, length_append]
    exact h.1.trans (Nat.le_add_right _ _)
  · rw [storeAt_append h.1]
    exact h.2

/-- A view shows the store at its frontier. -/
def ViewOk (seed : κ → Option ν) (trace : List (Finish κ ν P α)) (view : StoreView κ ν) : Prop :=
  ∀ f, view.frontier = some f → f ≤ (commits trace).length ∧ view.current = storeAt seed trace f

omit [LinearOrder P] in
lemma ViewOk.append {seed : κ → Option ν} (h : ViewOk seed trace view) (evs : List (Finish κ ν P α))
    :
    ViewOk seed (trace ++ evs) view := by
  intro f hf
  obtain ⟨hle, hcur⟩ := h f hf
  refine ⟨?_, hcur.trans (storeAt_append hle evs).symm⟩
  rw [commits_append, length_append]
  exact hle.trans (Nat.le_add_right _ _)

omit [LinearOrder P] in
/-- A tracked engine renders the store of its trace. -/
lemma Tracks.viewOk {seed : κ → Option ν} {e : CommitEngine κ ν ℕ}
    (h : Tracks seed e (commits trace)) : ViewOk seed trace e.view := by
  intro f hf
  obtain rfl : (commits trace).length = f := Option.mem_unique h.decided hf
  refine ⟨le_rfl, ?_⟩
  funext key
  rw [storeAt_length, ← h.readAsOf key]
  simp [CommitEngine.view, h.decided]

/-! ## The invariant of the system -/

/-- A site keeps its invariant, and its source goes on delivering in order with `reads`. -/
def SiteOk (t : TransactSite κ ν P α) (ok : DriverRow P α ν × ℕ → Prop) (finished : List P)
    (reads : List (SourceTile P α)) (s : SiteState κ ν P α) : Prop :=
  ∃ shown, SiteInv t ok finished shown s ∧ t.InOrder shown reads

/-- The engine, the sites and the trace agree, with `rest` what the sources show from here on. -/
structure TxnInv (cfg : ℕ → TransactSite κ ν P α) (n : ℕ) (seed : κ → Option ν)
    (rest : ℕ → List (SourceTile P α)) (x : TxnPull κ ν P α) : Prop where
  engine : Tracks seed x.store.engine (commits x.trace)
  trace_ok : TraceOk cfg n seed x.trace
  site : ∀ k, SiteOk (cfg k) (RowOk (cfg k) seed x.trace) (finishedBy k x.trace) (rest k)
    (x.sites k)
  /-- Every proposal a site has in flight was attempted. -/
  consumed : ∀ k, x.store.consumed k =
    (x.sites k).writer.committedBase + (x.sites k).writer.emitted.length

namespace TxnInv

variable {cfg : ℕ → TransactSite κ ν P α} {n : ℕ} {seed : κ → Option ν}
  {rest : ℕ → List (SourceTile P α)} {x : TxnPull κ ν P α}

/-- A site's move that appends only its own events keeps the other sites' invariants. -/
lemma update_site (h : TxnInv cfg n seed rest x) {s : SiteState κ ν P α}
    (evs : List (Finish κ ν P α)) (hevs : ∀ ev ∈ evs, ev.site = k) {reads : List (SourceTile P α)}
    (hs : SiteOk (cfg k) (RowOk (cfg k) seed x.trace) (finishedBy k x.trace ++ finishedBy k evs)
      reads s) (j : ℕ) :
    SiteOk (cfg j) (RowOk (cfg j) seed (x.trace ++ evs)) (finishedBy j (x.trace ++ evs))
      (Function.update rest k reads j) (Function.update x.sites k s j) := by
  rw [finishedBy_append]
  rcases eq_or_ne j k with rfl | hne
  · rw [Function.update_self, Function.update_self]
    obtain ⟨shown, hsite, hreads⟩ := hs
    exact ⟨shown, hsite.mono fun _ hx => hx.append evs, hreads⟩
  · rw [Function.update_of_ne hne, Function.update_of_ne hne, finishedBy_of_ne hevs hne, append_nil]
    obtain ⟨shown, hsite, hreads⟩ := h.site j
    exact ⟨shown, hsite.mono fun _ hx => hx.append evs, hreads⟩

/-- Rows a site may emit against a right view are described. -/
lemma rowOk_of_view {t : TransactSite κ ν P α} (hview : ViewOk seed trace view) (f : ℕ)
    (hf : view.frontier = some f) (item : α) (pos : P) (p : ℕ) :
    RowOk t seed trace (⟨t.snapIn view.current item, item, pos, p⟩, f) := by
  obtain ⟨hle, hcur⟩ := hview f hf
  exact ⟨hle, by rw [hcur]⟩

variable {f : ℕ} {row : DriverRow P α ν}

/-- An item finished without a commit is rightly passed. -/
lemma finishOk_passed (hk : k < n) (hat : RowAt (cfg k) (RowOk (cfg k) seed x.trace) view f row)
    (hdenied : ((cfg k).body row.snapshot row.item).commit = false ∨
      (cfg k).writeSet ((cfg k).body row.snapshot row.item) = []) :
    FinishOk cfg n seed x.trace ⟨k, row.itemPosition, row.item, f, none⟩ where
  site_lt := hk
  item_mem := hat.item
  decided := hat.described.1
  committed := by simp
  passed _ := ⟨_, rfl, by rw [← hat.described.2]; exact hdenied⟩

/-- A commit of a proposal none of whose read keys was written since its snapshot is right. -/
lemma finishOk_committed (hk : k < n) (hview : ViewOk seed x.trace view)
    (hat : RowAt (cfg k) (RowOk (cfg k) seed x.trace) view f row)
    (hgranted : ((cfg k).body row.snapshot row.item).commit = true)
    (hwrites : (cfg k).writeSet ((cfg k).body row.snapshot row.item) ≠ [])
    (hreads : ∀ r ∈ (cfg k).reads view.current, serialStore seed ((commits x.trace).take f) r.1 =
      serialStore seed (commits x.trace) r.1) :
    FinishOk cfg n seed x.trace ⟨k, row.itemPosition, row.item, f,
      some ((commits x.trace).length + 1,
        (cfg k).writeSet ((cfg k).body row.snapshot row.item))⟩ := by
  obtain ⟨hf, hdesc, hitem⟩ := hat
  -- The snapshot the row was built from is the one the commit's store gives.
  have hsnap : (cfg k).snapshotFor (storeAt seed x.trace f)
      (storeAt seed x.trace (commits x.trace).length) row.item = row.snapshot := by
    rw [hdesc.2, TransactSite.snapshotFor, TransactSite.snapIn]
    refine map_congr_left fun key hkey => ?_
    cases hheld : storeAt seed x.trace f key with
    | none => simp
    | some v =>
      have hread : (key, v) ∈ (cfg k).reads view.current := by
        refine mem_filterMap.2 ⟨key, hkey, ?_⟩
        simp [(hview f hf).2, hheld]
      have hnow := hreads _ hread
      rw [storeAt_length, ← hnow]
      change (if _ then (storeAt seed x.trace f key).getD _ else _) = _
      simp [hheld]
  refine ⟨hk, hitem, hdesc.1, fun tick writes heq => ?_, by simp⟩
  cases heq
  refine ⟨rfl, hwrites, _, rfl, ?_⟩
  rw [Nat.add_sub_cancel, hsnap]
  exact ⟨hgranted, rfl⟩

/-- Draining one site keeps the invariant and only appends to the trace. -/
lemma drainSite (h : TxnInv cfg n seed rest x) (hview : ViewOk seed x.trace view)
    {pulls : ℕ → SitePull P α} (hk : k < n) {reads : List (SourceTile P α)}
    (hreads : rest k = (pulls k).reads ++ reads) :
    ∃ x', Cambra.drainSite cfg view pulls x k = some x' ∧
      TxnInv cfg n seed (Function.update rest k reads) x' ∧ x.trace <+: x'.trace := by
  obtain ⟨_, hsite, horder⟩ := h.site k
  obtain ⟨w, shown, hwe, hwb, hpulled, hrest⟩ :=
    hsite.writerGet k (rowOk_of_view hview) (hreads ▸ horder)
  have hconsumed : x.store.consumed k = w.committedBase + w.emitted.length := by
    rw [h.consumed k, hwe, hwb]
  have hothers : ∀ (c : ℕ) (s : SiteState κ ν P α),
      c = s.writer.committedBase + s.writer.emitted.length → ∀ j,
      Function.update x.store.consumed k c j =
        (Function.update x.sites k s j).writer.committedBase +
          (Function.update x.sites k s j).writer.emitted.length := by
    intro c s hc j
    rcases eq_or_ne j k with rfl | hne
    · simp [hc]
    · simp [Function.update_of_ne hne, h.consumed j]
  unfold Cambra.drainSite
  generalize (x.sites k).writerGet k (cfg k) view (pulls k) = r at hpulled
  cases hpulled with
  | idle s' inv emitted base =>
    -- Every row shown again is behind the cursor.
    have hskip : ∀ y ∈ s'.writer.render.rows, y.1 < x.store.consumed k := by
      intro y hy
      obtain ⟨z, hz, rfl⟩ := mem_map.1 hy
      have := snd_lt_of_mem_zipIdx hz
      simp only [hconsumed, ← base, ← emitted]
      omega
    simp only [drainWriter, attemptRows_skip hskip, Option.map_some, append_nil,
      drop_length, foldl_nil]
    refine ⟨_, rfl, ⟨h.engine, h.trace_ok, fun j => ?_, ?_⟩, prefix_rfl⟩
    · simpa [finishedBy] using h.update_site [] (by simp)
        ⟨shown, by simpa [finishedBy] using inv, hrest⟩ j
    · exact hothers _ s' (by rw [hconsumed, base, emitted])
  | finish s' row f inv hat denied emitted base =>
    have hrows : s'.writer.render.rows = [] := by simp [TransactWriter.render, emitted]
    simp only [drainWriter, hrows, attemptRows, Option.map_some, append_nil, drop_length, foldl_nil]
    have hok := finishOk_passed hk hat denied
    refine ⟨_, rfl, ⟨?_, traceOk_concat h.trace_ok hok, fun j => ?_, ?_⟩, prefix_append _ _⟩
    · simpa [commits_append, commits] using h.engine
    · exact h.update_site _ (by simp) ⟨shown, by simpa [finishedBy] using inv, hrest⟩ j
    · exact hothers _ s' (by rw [hconsumed, base, emitted, length_nil, Nat.add_zero])
  | propose s' row f inv hat granted writes newest emitted base =>
    have hrows : s'.writer.render.rows = [(s'.writer.committedBase, ⟨f, (cfg k).reads view.current,
          (cfg k).writeSet ((cfg k).body row.snapshot row.item)⟩)] := by
      simp [TransactWriter.render, emitted]
    have hnew : ¬ s'.writer.committedBase < x.store.consumed k := by rw [hconsumed, base]; omega
    have hlen : s'.writer.committedBase + 1 =
        s'.writer.committedBase + s'.writer.emitted.length := by simp [emitted]
    rcases h.engine.attempt ⟨f, (cfg k).reads view.current,
        (cfg k).writeSet ((cfg k).body row.snapshot row.item)⟩ with hstale | ⟨hcommit, hreads⟩
    · -- A stale proposal stays in the window, behind the cursor.
      simp only [drainWriter, hrows, attemptRows, if_neg hnew, hstale, Option.bind_some,
        Option.map_some, drop_left, foldl_cons, foldl_nil, land, append_nil]
      refine ⟨_, rfl, ⟨h.engine, h.trace_ok, fun j => ?_, ?_⟩, prefix_rfl⟩
      · simpa [finishedBy] using h.update_site [] (by simp)
          ⟨shown, by simpa [finishedBy] using inv, hrest⟩ j
      · exact hothers _ s' hlen
    · -- A commit is released back, which finishes the item.
      obtain ⟨g, hg, -⟩ := inv.driver.window_last row newest
      obtain ⟨hinv, hemitted', hbase'⟩ := inv.writerRelease newest emitted rfl (pulls k).ackExtra
      have hok := finishOk_committed hk hview hat granted writes hreads
      have hfinish : s'.finishOf k s'.writer.committedBase ((commits x.trace).length + 1) =
          some ⟨k, row.itemPosition, row.item, f, some ((commits x.trace).length + 1,
            (cfg k).writeSet ((cfg k).body row.snapshot row.item))⟩ := by
        simp [SiteState.finishOf, emitted, inv.driver.pushed_get (mem_of_getLast? hg)]
      simp only [drainWriter, hrows, attemptRows, if_neg hnew, hcommit, Option.bind_some,
        Option.map_some, drop_left, foldl_cons, foldl_nil, land, append_nil,
        hfinish, Option.toList_some]
      refine ⟨_, rfl, ⟨?_, traceOk_concat h.trace_ok hok, fun j => ?_, ?_⟩, prefix_append _ _⟩
      · simpa [commits_append, commits] using h.engine.commit _
      · exact h.update_site _ (by simp) ⟨shown, by simpa [finishedBy] using hinv, hrest⟩ j
      · exact hothers _ _ (by rw [hemitted', hbase', length_nil, Nat.add_zero])

/-- What the sources show from here on, while the sites `ks` have still to be pulled. -/
def pending (pulls : ℕ → SitePull P α) (rest : ℕ → List (SourceTile P α)) (ks : List ℕ) (k : ℕ) :
    List (SourceTile P α) :=
  if k ∈ ks then (pulls k).reads ++ rest k else rest k

/-- Draining distinct sites in any order keeps the invariant. -/
lemma drainSites {pulls : ℕ → SitePull P α} {ks : List ℕ}
    (h : TxnInv cfg n seed (pending pulls rest ks) x) (hview : ViewOk seed x.trace view)
    (hks : ∀ k ∈ ks, k < n) (hnodup : ks.Nodup) :
    ∃ x', Cambra.drainSites cfg view pulls ks x = some x' ∧ TxnInv cfg n seed rest x' := by
  induction ks generalizing x with
  | nil =>
    have hrest : pending pulls rest [] = rest := funext fun k => by simp [pending]
    exact ⟨x, rfl, hrest ▸ h⟩
  | cons k ks ih =>
    obtain ⟨hk, hnodup⟩ := nodup_cons.1 hnodup
    have hreads : pending pulls rest (k :: ks) k = (pulls k).reads ++ rest k := by simp [pending]
    obtain ⟨x₁, h₁, hinv₁, evs, hevs⟩ := h.drainSite hview (hks k mem_cons_self) hreads
    have hrest : Function.update (pending pulls rest (k :: ks)) k (rest k) =
        pending pulls rest ks := by
      funext j
      rcases eq_or_ne j k with rfl | hne
      · rw [Function.update_self, pending, if_neg hk]
      · rw [Function.update_of_ne hne, pending, pending]
        simp [hne]
    obtain ⟨x₂, h₂, hinv₂⟩ := ih (hrest ▸ hinv₁) (hevs ▸ hview.append evs)
      (fun j hj => hks j (mem_cons_of_mem _ hj)) hnodup
    exact ⟨x₂, by simp [Cambra.drainSites, h₁, h₂], hinv₂⟩

/-- Only the engine's state and the cursors of the store matter. -/
lemma of_store (h : TxnInv cfg n seed rest x) {d : Draining κ ν} (he : d.engine = x.store.engine)
    (hc : d.consumed = x.store.consumed) : TxnInv cfg n seed rest { x with store := d } where
  __ := h
  engine := he ▸ h.engine
  consumed := hc ▸ h.consumed

/-- Sources may show less than they would. -/
lemma sublist (h : TxnInv cfg n seed rest x) {rest' : ℕ → List (SourceTile P α)}
    (hrest : ∀ k, (rest' k).Sublist (rest k)) : TxnInv cfg n seed rest' x := by
  refine { h with site := fun k => ?_ }
  obtain ⟨shown, hsite, hreads⟩ := h.site k
  exact ⟨shown, hsite, hreads.sublist (((hrest k).map _).append_right _ |>.cons_cons _)⟩

lemma fresh (n : ℕ) (seed : κ → Option ν) (terminal : ℕ → Bool)
    (hrest : ∀ k, (cfg k).InOrder [] (rest k)) : TxnInv cfg n seed rest
      ⟨⟨.new seed, fun _ => 0, terminal, [], []⟩, fun k => .fresh (cfg k), []⟩ where
  engine := Tracks.new seed
  trace_ok := by simp [TraceOk]
  site k := ⟨[], SiteInv.fresh _ _, hrest k⟩
  consumed _ := rfl

end TxnInv

namespace TxnSystem

/-- The seed the store opened with, or nothing before it opened. -/
def seed (s : TxnSystem κ ν P α) : κ → Option ν := s.producer.engine.elim (fun _ => none) (·.seed)

/-- What the system keeps between pulls. -/
structure Inv (cfg : ℕ → TransactSite κ ν P α) (n : ℕ) (rest : ℕ → List (SourceTile P α))
    (s : TxnSystem κ ν P α) : Prop where
  writers : s.producer.writers = n
  /-- Before the store opens nothing has happened. -/
  unopened : s.producer.engine = none → s.trace = [] ∧ s.cached.frontier = none ∧
    (s.sites = fun k => .fresh (cfg k)) ∧ (s.producer.consumed = fun _ => 0) ∧
    ∀ k, (cfg k).InOrder [] (rest k)
  opened : ∀ e, s.producer.engine = some e →
    TxnInv cfg n e.seed rest
      ⟨⟨e, s.producer.consumed, s.producer.writerTerminal, [], []⟩, s.sites, s.trace⟩ ∧
    ViewOk e.seed s.trace s.cached

variable {cfg : ℕ → TransactSite κ ν P α} {n : ℕ} {rest : ℕ → List (SourceTile P α)}
  {s : TxnSystem κ ν P α}

lemma Inv.init (n : ℕ) (seed : List (κ × ν)) (seedKeys : List κ)
    (hrest : ∀ k, (cfg k).InOrder [] (rest k)) : (init cfg n seed seedKeys).Inv cfg n rest where
  writers := rfl
  unopened _ := ⟨rfl, rfl, rfl, rfl, hrest⟩
  opened := by simp [TxnSystem.init, CommitProducer.fresh]

lemma Inv.pull {pulls : ℕ → SitePull P α} (h : s.Inv cfg n fun k => (pulls k).reads ++ rest k)
    (seeds : κ → Option ν) :
    ∃ s', s.pull cfg seeds pulls = some s' ∧ s'.Inv cfg n rest := by
  obtain ⟨hn, -, hc, ht, he⟩ := s.producer.openStore_spec seeds
  have hskip : ∀ k, (rest k).Sublist ((pulls k).reads ++ rest k) := fun k =>
    sublist_append_right _ _
  unfold TxnSystem.pull
  simp only
  cases hengine : (s.producer.openStore seeds).engine with
  | none =>
    have hclosed : s.producer.engine = none := by
      rcases he with he | ⟨he, -⟩
      · exact he.symm.trans hengine
      · exact he
    obtain ⟨htrace, -, hsites, hcons, hrest⟩ := h.unopened hclosed
    refine ⟨_, rfl, hn.trans h.writers, fun _ => ⟨htrace, rfl, hsites, hc.trans hcons, fun k => ?_⟩,
      ?_⟩
    · exact (hrest k).sublist (((hskip k).map _).append_right _ |>.cons_cons _)
    · intro e hopen
      simp [hengine] at hopen
  | some e =>
    -- Opened earlier, or by this pull.
    have hstart : TxnInv cfg n e.seed (fun k => (pulls k).reads ++ rest k)
        ⟨⟨e, (s.producer.openStore seeds).consumed,
          (s.producer.openStore seeds).writerTerminal, [], []⟩, s.sites, s.trace⟩ ∧
        ViewOk e.seed s.trace s.cached := by
      rcases he with he | ⟨hnone, init, he⟩
      · obtain ⟨hinv, hview⟩ := h.opened e (he.symm.trans hengine)
        exact ⟨hinv.of_store rfl hc, hview⟩
      · obtain ⟨htrace, hfrontier, hsites, hcons, hrest⟩ := h.unopened hnone
        obtain rfl := Option.mem_unique he hengine
        refine ⟨?_, fun f hf => by simp [hfrontier] at hf⟩
        rw [htrace, hsites, hc, hcons]
        exact TxnInv.fresh n init _ hrest
    have horder : ∀ k ∈ (s.producer.openStore seeds).drainOrder, k < n := fun k hk =>
      (CommitProducer.mem_drainOrder hk).trans_eq (hn.trans h.writers)
    have hpending : ∀ k, (TxnInv.pending pulls rest (s.producer.openStore seeds).drainOrder
        k).Sublist ((pulls k).reads ++ rest k) := by
      intro k
      unfold TxnInv.pending
      split_ifs
      · exact List.Sublist.refl _
      · exact hskip k
    obtain ⟨x, hx, hinv⟩ := (hstart.1.sublist hpending).drainSites hstart.2 horder
      (CommitProducer.nodup_drainOrder _)
    simp only [hx, Option.map_some]
    refine ⟨_, rfl, hn.trans h.writers, by simp [CommitProducer.finishDrain], fun e' he' => ?_⟩
    obtain rfl : x.store.engine = e' := Option.some.inj he'
    rw [hinv.engine.seed_eq]
    exact ⟨hinv.of_store rfl rfl, hinv.engine.viewOk⟩

lemma Inv.reclaim (h : s.Inv cfg n rest) (pred : ℕ → Bool) :
    Inv cfg n rest { s with producer := s.producer.reclaim pred } := by
  refine ⟨h.writers, fun hnone => h.unopened (Option.map_eq_none_iff.1 hnone), fun e' he' => ?_⟩
  obtain ⟨e, he, hrel⟩ := Option.map_eq_some_iff.1 he'
  obtain ⟨hinv, hview⟩ := h.opened e he
  have htracks : Tracks e.seed e' (commits s.trace) := by
    rw [← hrel]
    split
    · exact hinv.engine.gc _
    · exact hinv.engine
  rw [htracks.seed_eq]
  exact ⟨⟨htracks, hinv.trace_ok, hinv.site, hinv.consumed⟩, hview⟩

/-- A run without releases of another shape does not panic, and keeps the invariant. -/
lemma Inv.run {inputs : List (TxnInput κ ν P α)}
    (h : s.Inv cfg n fun k => readsOf k inputs) (hguards : TxnInput.release .other ∉ inputs) :
    ∃ s', s.run cfg inputs = some s' ∧ s'.Inv cfg n fun _ => [] := by
  induction inputs generalizing s with
  | nil => exact ⟨s, rfl, h⟩
  | cons input inputs ih =>
    obtain ⟨hguard, htail⟩ := not_or.1 (mt List.mem_cons.2 hguards)
    cases input with
    | pull seeds pulls =>
      obtain ⟨s₁, h₁, hinv₁⟩ := Inv.pull h seeds
      obtain ⟨s₂, h₂, hinv₂⟩ := ih hinv₁ htail
      exact ⟨s₂, by simp [TxnSystem.run, h₁, h₂], hinv₂⟩
    | release guard =>
      have hp : ∃ p, s.producer.release guard = some p := by
        cases guard with
        | other => exact absurd rfl hguard
        | domain | empty | universal => exact ⟨_, rfl⟩
      obtain ⟨p, hp⟩ := hp
      simp only [TxnSystem.run, hp, Option.bind_some]
      rcases CommitProducer.release_cases hp with rfl | ⟨pred, rfl⟩
      · exact ih h htail
      · exact ih (h.reclaim pred) htail

end TxnSystem

/-- A site that adds its items to the counter at `key`. -/
def adder (key : ℕ) (rows : List (ℕ × Option ℕ)) (h : rows.Pairwise (fun a b => a.1 < b.1)) :
    TransactSite ℕ ℕ ℕ ℕ where
  rows := rows
  ascending := h
  resumedAfter := none
  readKeys := [key]
  writeKeys := [key]
  taps := 0
  body snap item := ⟨true, [snap.getD 0 0 + item], []⟩
  standIn := id

/-- A pull of the store, seeded with 1, in which every site's body pulls its driver once and has its
decision ready; `tiles` is what the sources show. -/
def pullShowing (tiles : ℕ → SourceTile ℕ ℕ) : TxnInput ℕ ℕ ℕ ℕ := .pull (fun _ => some 1) fun k =>
    ⟨[(some (tiles k), fun _ => true)], none, true, fun _ => false⟩

/-- The site of a source with items at positions 0 and 1. -/
def twoItems : TransactSite ℕ ℕ ℕ ℕ := adder 0 [(0, some 5), (1, some 7)] (by simp)

/-- The item at position 1 arrives and commits; then the one at position 0 arrives too, and the
source calls itself complete. -/
def lateDelivery : List (TxnInput ℕ ℕ ℕ ℕ) :=
  let first : SourceTile ℕ ℕ := ⟨[(1, some 7)], by simp, false, fun _ => false⟩
  let both : SourceTile ℕ ℕ := ⟨twoItems.rows, twoItems.ascending, true, fun _ => true⟩
  [pullShowing fun _ => first, pullShowing fun _ => first, pullShowing fun _ => both]

end Cambra
