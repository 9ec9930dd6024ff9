import Mathlib.Data.List.Induction

/-!
# Notifications: gates, re-entry and the wakeup queue

The notification machinery of `scheduler.rs` (`GatedConsumer`, `forwarding_consumer`, `WakeupQueue`,
`Scheduler::poll_sources` and `deliver`) together with the part of `TileProducer::get` that clears a
gate (`tile_operators/mod.rs`).

An operator's consumer sits behind a gate.  A notification that finds the gate clear sets it and is
passed on; one that finds it set is dropped; a pull of the operator clears it.  The consumer is kept
in a `RefCell`, so a notification that arrives while the consumer is running is not delivered:
behind a set gate it is dropped, behind a clear one it is queued for the next drain.

What a consumer does when it is notified, and what a producer does when it is pulled, is any finite
list of actions: announcing changes to operators, pulling operators, requesting wakeups.  The lists
are inputs of the moves (`Move`), so a run ranges over every notification graph and over every
behaviour of the operators in it, and a cascade is a stack of lists still to be worked off.

`State.trace` records what happened, newest first.

## Main results

* `State.Kept.step`, `State.kept_run`: a change announced to an operator since its last pull has
  been passed on, or a wakeup for it waits, and its gate passes one notification between two pulls.
* `State.deliver_isSome`: a drain never finds a consumer borrowed.
-/

namespace Cambra.Sched

/-! ## Flags and queues -/

/-- Whether a notification has arrived since the flag was last taken. -/
inductive Notified where
  /-- Every pull reads. -/
  | always
  | flag (set : Bool)
deriving DecidableEq, Repr

namespace Notified

/-- A flag that starts clear. -/
def clear : Notified := .flag false

/-- Mark the flag, and say whether it was clear. -/
def markNews : Notified → Bool × Notified
  | .always => (true, .always)
  | .flag set => (!set, .flag true)

/-- Whether the flag is set. -/
def isSet : Notified → Bool
  | .always => true
  | .flag set => set

@[simp] lemma isSet_flag (set : Bool) : (flag set).isSet = set := rfl

/-- Read and clear. -/
def take : Notified → Bool × Notified
  | .always => (true, .always)
  | .flag set => (set, .flag false)

end Notified

variable {Op : Type*} [DecidableEq Op]

/-- Consumers to notify later, each once. -/
structure WakeupQueue (Op : Type*) where
  waiting : List Op
deriving DecidableEq, Repr

namespace WakeupQueue

/-- The empty queue. -/
def empty : WakeupQueue Op := ⟨[]⟩

/-- Queue `consumer`, unless it waits already. -/
def request (self : WakeupQueue Op) (consumer : Op) : WakeupQueue Op :=
  if consumer ∈ self.waiting then self else ⟨self.waiting ++ [consumer]⟩

/-- What is queued, and the queue without it. -/
def take (self : WakeupQueue Op) : List Op × WakeupQueue Op := (self.waiting, ⟨[]⟩)

lemma mem_request {self : WakeupQueue Op} {v w : Op} :
    v ∈ (self.request w).waiting ↔ v = w ∨ v ∈ self.waiting := by
  rw [request]
  split_ifs with h
  · constructor
    · exact .inr
    · rintro (rfl | hv)
      · exact h
      · exact hv
  · simp [or_comm]

end WakeupQueue

/-! ## The machine -/

/-- What running code does: a change is announced to an operator through the `forwarding_consumer`
of one of its inputs, an operator is pulled, a wakeup or a sink's pull is requested. -/
inductive Action (Op : Type*) where
  | announce (v : Op)
  | pull (v : Op)
  | request (v : Op)
  | requestPull (v : Op)
deriving DecidableEq, Repr

/-- A call in progress, with what it has still to do: the consumer of an operator, while its
`RefCell` is borrowed, or the producer of one. -/
inductive Frame (Op : Type*) where
  | consumer (v : Op) (rest : List (Action Op))
  | producer (v : Op) (rest : List (Action Op))
deriving DecidableEq, Repr

/-- What `deliver` is working through. -/
inductive Phase (Op : Type*) where
  | idle
  | sources (woken : List Op)
  | wakes (snapshot : List Op)
  | pulls (snapshot : List Op)
deriving DecidableEq, Repr

/-- What happened to an operator: a change was announced to it, its gate passed a notification to
its consumer, it was pulled. -/
inductive Event (Op : Type*) where
  | announced (v : Op)
  | passed (v : Op)
  | pulled (v : Op)
deriving DecidableEq, Repr

/-- The gates, the queues, the delivery and the cascade in progress, and what happened so far. -/
structure State (Op : Type*) where
  gate : Op → Notified
  wakeups : WakeupQueue Op
  sinkPulls : WakeupQueue Op
  phase : Phase Op
  /-- Innermost first. -/
  stack : List (Frame Op)
  /-- Newest first. -/
  trace : List (Event Op)

namespace Frame

/-- What the call has still to do. -/
def rest : Frame Op → List (Action Op)
  | .consumer _ rest => rest
  | .producer _ rest => rest

/-- The call after its first action. -/
def advance : Frame Op → Frame Op
  | .consumer v rest => .consumer v rest.tail
  | .producer v rest => .producer v rest.tail

/-- The call is the consumer of `v`. -/
def isConsumerOf (v : Op) : Frame Op → Bool
  | .consumer w _ => w = v
  | .producer _ _ => false

end Frame

namespace State

/-- Nothing has happened; every gate is clear, as `shared_consumer` builds it. -/
def start : State Op where
  gate _ := .clear
  wakeups := .empty
  sinkPulls := .empty
  phase := .idle
  stack := []
  trace := []

/-- The consumer of `v` is running, so its `RefCell` cannot be borrowed. -/
def borrowed (s : State Op) (v : Op) : Bool := s.stack.any (Frame.isConsumerOf v)

/-- The shared consumer of `v` is called: behind a clear gate its own consumer runs, and does
`does`. -/
def notifyShared (s : State Op) (v : Op) (does : List (Action Op)) : State Op :=
  let (news, gate) := (s.gate v).markNews
  let s := { s with gate := Function.update s.gate v gate }
  if news then { s with trace := .passed v :: s.trace, stack := .consumer v does :: s.stack } else s

/-- The consumer that `forwarding_consumer` makes is called. -/
def forward (s : State Op) (v : Op) (does : List (Action Op)) : State Op :=
  if s.borrowed v = false then s.notifyShared v does
  else if (s.gate v).isSet then s
  else { s with wakeups := s.wakeups.request v }

/-- An input of `v` announces a change. -/
def announce (s : State Op) (v : Op) (does : List (Action Op)) : State Op :=
  { s with trace := .announced v :: s.trace }.forward v does

/-- `get` of the producer of `v`: the gate is cleared before the producer runs. -/
def pull (s : State Op) (v : Op) (does : List (Action Op)) : State Op := { s with
    gate := Function.update s.gate v (s.gate v).take.2
    trace := .pulled v :: s.trace
    stack := .producer v does :: s.stack }

/-- One action; `does` is what the call it makes will do, if it makes one. -/
def perform (s : State Op) (does : List (Action Op)) : Action Op → State Op
  | .announce v => s.announce v does
  | .pull v => s.pull v does
  | .request v => { s with wakeups := s.wakeups.request v }
  | .requestPull v => { s with sinkPulls := s.sinkPulls.request v }

/-- `borrow_mut` and `notify` of the shared consumer of `v`, which panics while it is borrowed. -/
def wake (s : State Op) (v : Op) (does : List (Action Op)) : Option (State Op) :=
  if s.borrowed v then none else some (s.notifyShared v does)

end State

/-- The moves of the machine. -/
inductive Move (Op : Type*) where
  /-- Code outside any cascade acts. -/
  | act (a : Action Op) (does : List (Action Op))
  /-- The innermost call does its next action. -/
  | next (does : List (Action Op))
  /-- The innermost call returns. -/
  | returns
  /-- `poll_sources` finds data for these consumers, and `deliver` starts. -/
  | poll (woken : List Op)
  /-- `deliver` goes on with its current list. -/
  | deliver (does : List (Action Op))
  /-- `deliver` has finished a list and takes the next queue. -/
  | take
deriving DecidableEq, Repr

namespace State

/-- One move; `none` where it does not apply, or panics. -/
def step (s : State Op) : Move Op → Option (State Op)
  | .act a does => if s.stack = [] then some (s.perform does a) else none
  | .next does =>
    match s.stack with
    | [] => none
    | frame :: outer =>
      match frame.rest with
      | [] => none
      | a :: _ => some ({ s with stack := frame.advance :: outer }.perform does a)
  | .returns =>
    match s.stack with
    | [] => none
    | frame :: outer => if frame.rest = [] then some { s with stack := outer } else none
  | .poll woken =>
    if s.stack = [] ∧ s.phase = .idle then some { s with phase := .sources woken } else none
  | .deliver does =>
    if s.stack ≠ [] then none
    else match s.phase with
      | .sources (v :: rest) =>
        { s with phase := .sources rest, trace := .announced v :: s.trace }.wake v does
      | .wakes (v :: rest) => { s with phase := .wakes rest }.wake v does
      | .pulls (v :: rest) => some ({ s with phase := .pulls rest }.pull v does)
      | _ => none
  | .take =>
    if s.stack ≠ [] then none
    else match s.phase with
      | .sources [] =>
        some { s with phase := .wakes s.wakeups.take.1, wakeups := s.wakeups.take.2 }
      | .wakes [] =>
        some { s with phase := .pulls s.sinkPulls.take.1, sinkPulls := s.sinkPulls.take.2 }
      | .pulls [] => some { s with phase := .idle }
      | _ => none

/-- The moves, one after another. -/
def run (moves : List (Move Op)) : Option (State Op) := moves.foldlM step start

/-- The wakeups of the drain in progress that have not been delivered. -/
def draining (s : State Op) : List Op :=
  match s.phase with
  | .wakes snapshot => snapshot
  | _ => []

/-- What happened since the last pull of `v`. -/
def sincePull (s : State Op) (v : Op) : List (Event Op) := s.trace.takeWhile (· ≠ .pulled v)

/-- How many pulls there were. -/
def pullCount (s : State Op) : ℕ := s.trace.countP fun e => match e with
    | .pulled _ => true
    | _ => false

/-- A move of the cascade in progress. -/
def Cascades (s s' : State Op) : Prop :=
  (∃ does, s.step (.next does) = some s') ∨ s.step .returns = some s'

end State

/-! ## One operator at a time -/

namespace State

variable {s : State Op} {v w : Op} {does : List (Action Op)} {e : Event Op}
  {trace : List (Event Op)} {s' : State Op}

lemma sincePull_cons (h : s.trace = e :: trace) :
    s.sincePull v = if e = .pulled v then [] else e :: trace.takeWhile (· ≠ .pulled v) := by
  rw [sincePull, h, List.takeWhile_cons]
  split_ifs with hne heq heq
  · simp [heq] at hne
  · rfl
  · rfl
  · simp [heq] at hne

/-- Between two notifications the gate of `v` passed, `v` was pulled. -/
def Once (v : Op) (trace : List (Event Op)) : Prop :=
  ∀ newer between older, trace = newer ++ .passed v :: between ++ .passed v :: older →
    .pulled v ∈ between

omit [DecidableEq Op] in
lemma Once.cons_of_ne (h : Once v trace) (he : e ≠ .passed v) : Once v (e :: trace) := by
  intro newer between older heq
  cases newer with
  | nil => exact absurd (List.cons.inj heq).1 he
  | cons e' newer => exact h newer between older (List.cons.inj heq).2

/-- A gate that has passed nothing since the last pull may pass a notification. -/
lemma Once.cons_passed (h : Once v trace) (hnot : .passed v ∉ trace.takeWhile (· ≠ .pulled v)) :
    Once v (.passed v :: trace) := by
  intro newer between older heq
  cases newer with
  | nil =>
    have htrace : trace = between ++ .passed v :: older := (List.cons.inj heq).2
    by_contra hpulled
    refine hnot ?_
    have hkept : ∀ e ∈ between, (decide (e ≠ .pulled v)) = true := fun e he => by
      simpa using fun heq' : e = .pulled v => hpulled (heq' ▸ he)
    rw [htrace, List.takeWhile_append_of_pos hkept]
    simp
  | cons e' newer => exact h newer between older (List.cons.inj heq).2

/-- The gate of `v` is a flag that is set exactly when it passed a notification since the last
pull, and it passed at most one between two pulls. -/
structure Gated (s : State Op) (v : Op) : Prop where
  flag : ∃ set, s.gate v = .flag set
  isSet_iff : (s.gate v).isSet = true ↔ .passed v ∈ s.sincePull v
  once : Once v s.trace

/-- A change announced to `v` since its last pull has been passed on, or a wakeup for `v` waits in
the queue or in the drain in progress. -/
def Woken (s : State Op) (v : Op) : Prop := .announced v ∈ s.sincePull v →
    .passed v ∈ s.sincePull v ∨ v ∈ s.wakeups.waiting ∨ v ∈ s.draining

/-- The invariant of a run. -/
def Kept (s : State Op) : Prop := ∀ v, s.Gated v ∧ s.Woken v

lemma start_kept : (start : State Op).Kept := fun v =>
  ⟨⟨⟨false, rfl⟩, by simp [start, Notified.clear, sincePull], fun newer between older
    heq => by simp [start] at heq⟩, fun h => by simp [start, sincePull] at h⟩

lemma Gated.congr (h : s.Gated v) (hgate : s'.gate v = s.gate v) (htrace : s'.trace = s.trace) :
    s'.Gated v := by
  have hsince : s'.sincePull v = s.sincePull v := by rw [sincePull, htrace, sincePull]
  exact ⟨hgate ▸ h.flag, by rw [hgate, hsince]; exact h.isSet_iff, htrace ▸ h.once⟩

/-- An event of another kind or of another operator leaves the gate as it is. -/
lemma Gated.log (h : s.Gated v) (hgate : s'.gate v = s.gate v) (htrace : s'.trace = e :: s.trace)
    (hpassed : e ≠ .passed v) (hpulled : e ≠ .pulled v) : s'.Gated v := by
  refine ⟨hgate ▸ h.flag, ?_, htrace ▸ h.once.cons_of_ne hpassed⟩
  rw [hgate, sincePull_cons htrace, if_neg hpulled, List.mem_cons, h.isSet_iff, sincePull]
  exact ⟨.inr, fun hmem => hmem.resolve_left fun heq => hpassed heq.symm⟩

/-- A wakeup for `v` survives what does not concern `v`. -/
lemma Woken.log (h : s.Woken v) (htrace : s'.trace = e :: s.trace) (hannounced : e ≠ .announced v)
    (hpulled : e ≠ .pulled v) (hwaiting : v ∈ s.wakeups.waiting → v ∈ s'.wakeups.waiting)
    (hdraining : v ∈ s.draining → v ∈ s'.draining) : s'.Woken v := by
  intro hmem
  rw [sincePull_cons htrace, if_neg hpulled] at hmem ⊢
  have hold : .announced v ∈ s.sincePull v :=
    (List.mem_cons.mp hmem).resolve_left fun heq => hannounced heq.symm
  rcases h hold with hp | hw | hd
  · exact .inl (List.mem_cons_of_mem _ hp)
  · exact .inr (.inl (hwaiting hw))
  · exact .inr (.inr (hdraining hd))

lemma Woken.mono (h : s.Woken v) (htrace : s'.trace = s.trace)
    (hwaiting : v ∈ s.wakeups.waiting ∨ v ∈ s.draining → v ∈ s'.wakeups.waiting ∨ v ∈ s'.draining) :
    s'.Woken v := by
  have hsince : s'.sincePull v = s.sincePull v := by rw [sincePull, htrace, sincePull]
  intro hmem
  rw [hsince] at hmem ⊢
  exact (h hmem).imp_right hwaiting

/-! ## What the calls keep -/

lemma notifyShared_of_set (h : s.gate v = .flag true) : s.notifyShared v does = s := by
  have hgate : Function.update s.gate v (.flag true) = s.gate := by
    rw [← h, Function.update_eq_self]
  simp [notifyShared, h, Notified.markNews, hgate]

lemma notifyShared_of_clear (h : s.gate v = .flag false) : s.notifyShared v does = { s with
      gate := Function.update s.gate v (.flag true)
      trace := .passed v :: s.trace
      stack := .consumer v does :: s.stack } := by simp [notifyShared, h, Notified.markNews]

/-- **The shared consumer passes on what the gate lets through**: afterwards a notification has been
passed since the last pull of `v`. -/
lemma notifyShared_gated (h : s.Gated v) :
    (s.notifyShared v does).Gated v ∧ .passed v ∈ (s.notifyShared v does).sincePull v := by
  obtain ⟨set, hset⟩ := h.flag
  cases set with
  | true =>
    rw [notifyShared_of_set hset]
    exact ⟨h, h.isSet_iff.mp (by simp [hset])⟩
  | false =>
    have hclear : .passed v ∉ s.sincePull v := fun hmem => by
      simpa [hset] using h.isSet_iff.mpr hmem
    rw [notifyShared_of_clear hset]
    have hpassed : .passed v ∈ ({ s with
        gate := Function.update s.gate v (.flag true)
        trace := .passed v :: s.trace
        stack := .consumer v does :: s.stack } : State Op).sincePull v := by
      rw [sincePull_cons rfl]
      simp
    refine ⟨⟨⟨true, by simp⟩, ?_, h.once.cons_passed hclear⟩, hpassed⟩
    simpa using hpassed

lemma notifyShared_other (hw : w ≠ v) (hgated : s.Gated v) (h : s.Gated w ∧ s.Woken w) :
    (s.notifyShared v does).Gated w ∧ (s.notifyShared v does).Woken w := by
  obtain ⟨set, hset⟩ := hgated.flag
  cases set with
  | true =>
    rw [notifyShared_of_set hset]
    exact h
  | false =>
    rw [notifyShared_of_clear hset]
    exact ⟨h.1.log (by simp [hw]) rfl (by simp [hw.symm]) (by simp),
      h.2.log rfl (by simp) (by simp) id id⟩

/-- Waking `v` settles `v`, whatever was announced to it. -/
lemma notifyShared_kept (hgated : ∀ w, s.Gated w) (hwoken : ∀ w, w ≠ v → s.Woken w) :
    (s.notifyShared v does).Kept := by
  intro w
  by_cases hw : w = v
  · subst hw
    have hnotified : _ ∧ .passed w ∈ (s.notifyShared w does).sincePull w :=
      notifyShared_gated (hgated w)
    exact ⟨hnotified.1, fun _ => .inl hnotified.2⟩
  · exact notifyShared_other hw (hgated v) ⟨hgated w, hwoken w hw⟩

/-- **An announcement is passed on, or already was, or is queued.** -/
lemma Kept.announce (h : s.Kept) (v : Op) (does : List (Action Op)) : (s.announce v does).Kept := by
  have hgated : ∀ w, ({ s with trace := .announced v :: s.trace } : State Op).Gated w := fun w =>
    (h w).1.log rfl rfl (by simp) (by simp)
  have hwoken : ∀ w, w ≠ v → ({ s with trace := .announced v :: s.trace } : State Op).Woken w :=
    fun w hw => (h w).2.log rfl (by simpa using hw.symm) (by simp) id id
  rw [State.announce, forward]
  split_ifs with hborrowed hset
  · exact notifyShared_kept hgated hwoken
  · -- the notification in progress passed since the last pull
    intro w
    by_cases hw : w = v
    · subst hw
      exact ⟨hgated w, fun _ => .inl ((hgated w).isSet_iff.mp hset)⟩
    · exact ⟨hgated w, hwoken w hw⟩
  · intro w
    refine ⟨(hgated w).congr rfl rfl, ?_⟩
    by_cases hw : w = v
    · subst hw
      exact fun _ => .inr (.inl (WakeupQueue.mem_request.mpr (.inl rfl)))
    · exact (hwoken w hw).mono rfl fun hold =>
        hold.imp_left fun hmem => WakeupQueue.mem_request.mpr (.inr hmem)

/-- A pull starts over: nothing was announced since. -/
lemma Kept.pull (h : s.Kept) (v : Op) (does : List (Action Op)) : (s.pull v does).Kept := by
  intro w
  have htrace : (s.pull v does).trace = .pulled v :: s.trace := rfl
  by_cases hw : w = v
  · subst hw
    have hsince : (s.pull w does).sincePull w = [] := by rw [sincePull_cons htrace, if_pos rfl]
    obtain ⟨set, hset⟩ := (h w).1.flag
    have hgate : (s.pull w does).gate w = .flag false := by simp [State.pull, hset, Notified.take]
    refine ⟨⟨⟨false, hgate⟩, ?_, htrace ▸ (h w).1.once.cons_of_ne (by simp)⟩, fun hmem => ?_⟩
    · simp [hgate, hsince]
    · simp [hsince] at hmem
  · have hne : Event.pulled v ≠ .pulled w := by simpa using Ne.symm hw
    exact ⟨(h w).1.log (by simp [State.pull, hw]) htrace (by simp) hne,
      (h w).2.log htrace (by simp) hne id id⟩

lemma Kept.perform (h : s.Kept) (does : List (Action Op)) (a : Action Op) :
    (s.perform does a).Kept := by
  cases a with
  | announce v => exact h.announce v does
  | pull v => exact h.pull v does
  | request v =>
    exact fun w => ⟨(h w).1.congr rfl rfl, (h w).2.mono rfl fun hold =>
      hold.imp_left fun hmem => WakeupQueue.mem_request.mpr (.inr hmem)⟩
  | requestPull v => exact fun w => ⟨(h w).1.congr rfl rfl, (h w).2.mono rfl id⟩

/-- What the state of the calls and of the delivery is does not matter, as long as no snapshot
loses a wakeup. -/
lemma Kept.congr (h : s.Kept) (hgate : s'.gate = s.gate) (htrace : s'.trace = s.trace)
    (hwaiting : ∀ v, v ∈ s.wakeups.waiting ∨ v ∈ s.draining →
      v ∈ s'.wakeups.waiting ∨ v ∈ s'.draining) : s'.Kept := fun v =>
  ⟨(h v).1.congr (by rw [hgate]) htrace, (h v).2.mono htrace (hwaiting v)⟩

/-! ## Runs -/

lemma wake_eq_some (h : s.wake v does = some s') : s.notifyShared v does = s' := by
  rw [wake] at h
  split_ifs at h
  exact Option.some.inj h

/-- **One step keeps every wakeup.** -/
theorem Kept.step (h : s.Kept) {m : Move Op} (hstep : s.step m = some s') : s'.Kept := by
  cases m with
  | act a does =>
    rw [State.step] at hstep
    split_ifs at hstep
    cases hstep
    exact h.perform does a
  | next does =>
    rw [State.step] at hstep
    split at hstep
    · cases hstep
    · split at hstep
      · cases hstep
      · cases hstep
        refine Kept.perform ?_ does _
        exact h.congr rfl rfl fun _ => id
  | returns =>
    rw [State.step] at hstep
    split at hstep
    · cases hstep
    · split_ifs at hstep
      cases hstep
      exact h.congr rfl rfl fun _ => id
  | poll woken =>
    rw [State.step] at hstep
    split_ifs at hstep with hidle
    cases hstep
    exact h.congr rfl rfl fun _ hold => hold.imp_right fun hmem => by
      simp [draining, hidle.2] at hmem
  | deliver does =>
    rw [State.step] at hstep
    split_ifs at hstep
    split at hstep
    case _ v rest hphase =>
      -- a source announces and wakes at once
      rw [← wake_eq_some hstep]
      refine notifyShared_kept (fun w => (h w).1.log rfl rfl (by simp) (by simp)) fun w hw => ?_
      refine (h w).2.log rfl (by simpa using hw.symm) (by simp) id fun hmem => ?_
      simp [draining, hphase] at hmem
    case _ v rest hphase =>
      rw [← wake_eq_some hstep]
      refine notifyShared_kept (fun w => (h w).1.congr rfl rfl) fun w hw => ?_
      refine (h w).2.mono rfl fun hold => hold.imp_right fun hmem => ?_
      simpa [draining, hphase, hw] using hmem
    case _ v rest hphase =>
      cases hstep
      refine Kept.pull ?_ v does
      exact h.congr rfl rfl fun w hold => hold.imp_right fun hmem => by
        simp [draining, hphase] at hmem
    case _ => cases hstep
  | take =>
    rw [State.step] at hstep
    split_ifs at hstep
    split at hstep
    case _ hphase =>
      -- what was queued is now to be delivered by this drain
      cases hstep
      refine h.congr rfl rfl fun w hold => .inr ?_
      rcases hold with hmem | hmem
      · exact hmem
      · simp [draining, hphase] at hmem
    case _ hphase =>
      cases hstep
      exact h.congr rfl rfl fun w hold => hold.imp_right fun hmem => by
        simp [draining, hphase] at hmem
    case _ hphase =>
      cases hstep
      exact h.congr rfl rfl fun w hold => hold.imp_right fun hmem => by
        simp [draining, hphase] at hmem
    case _ => cases hstep

lemma kept_run {moves : List (Move Op)} (h : run moves = some s) : s.Kept := by
  induction moves using List.reverseRecOn generalizing s with
  | nil =>
    obtain rfl : start = s := Option.some.inj h
    exact start_kept
  | append_singleton moves m ih =>
    rw [run, List.foldlM_append] at h
    obtain ⟨s₀, hs₀, hstep⟩ := Option.bind_eq_some_iff.mp h
    simp only [List.foldlM_cons, List.foldlM_nil, bind_pure] at hstep
    exact (ih hs₀).step hstep

/-- **A drain never re-enters**: outside every cascade no consumer is borrowed, so `deliver` does
not panic while it has something to deliver. -/
theorem deliver_isSome (hstack : s.stack = []) (does : List (Action Op))
    (hphase : ∃ v rest, s.phase = .sources (v :: rest) ∨ s.phase = .wakes (v :: rest) ∨
      s.phase = .pulls (v :: rest)) : (s.step (.deliver does)).isSome := by
  obtain ⟨v, rest, hphase | hphase | hphase⟩ := hphase <;>
    simp [State.step, hstack, hphase, wake, borrowed]

end State

end Cambra.Sched
