import Cambra.Source.Releases

/-!
# The buffer of a stream source

The model of `UIntStreamBuffer` (`stream_buffer.rs`): a sliding window of the values pushed so far,
under counters that stay stable while the front is dropped.  What the window must satisfy for the
code's index arithmetic to be in range is part of the structure, so that no operation can build a
buffer outside it.  A panic of the source, a `u64` counter that overflows included, is `none`.

`get_yield_predicate` and `retained_window` are read by no operation of the buffer and are left out.

## Main results

* `getElements_spec`: a producer is offered the counters of the window outside its record.
* `releasedPrefix_spec`, `release_spec`: a release drops only counters of the agreement.
* `firstIndexForANewProducer_spec`: the first counter of the window outside the carried set, where
  intersections of interval sets leave no two intervals that touch.
-/

namespace Cambra

open Domain List Option

/-- Buffer and bookkeeping of a `UInt`-indexed string stream. -/
structure UIntStreamBuffer where
  /-- Entry `j` is the value at the counter `startIdx + j`. -/
  buffer : List String
  startIdx : ℕ
  /-- One past the highest counter pushed. -/
  readySize : ℕ
  eofReached : Bool
  /-- A universal release has been received. -/
  closed : Bool
  releases : ProducerReleases
  readySize_lt : readySize < 2 ^ 64
  startIdx_le : startIdx ≤ readySize
  buffer_length : buffer.length = readySize - startIdx
  startIdx_of_closed : closed = true → startIdx = readySize

namespace UIntStreamBuffer

/-! ## Operations -/

/-- The buffer of a source nothing has arrived on. -/
def new : UIntStreamBuffer where
  buffer := []
  startIdx := 0
  readySize := 0
  eofReached := false
  closed := false
  releases := .default
  readySize_lt := by omega
  startIdx_le := le_rfl
  buffer_length := rfl
  startIdx_of_closed := fun _ => rfl

/-- Append `value`, which a closed buffer does not keep. -/
def push (self : UIntStreamBuffer) (value : String) : Option UIntStreamBuffer :=
  if hlt : self.readySize + 1 < 2 ^ 64 then
    if hclosed : self.closed then
      some { self with
        startIdx := self.startIdx + 1
        readySize := self.readySize + 1
        readySize_lt := hlt
        startIdx_le := Nat.add_le_add_right self.startIdx_le 1
        buffer_length := by
          rw [self.buffer_length]
          omega
        startIdx_of_closed := fun h => by rw [self.startIdx_of_closed h] }
    else
      some { self with
        buffer := self.buffer ++ [value]
        readySize := self.readySize + 1
        readySize_lt := hlt
        startIdx_le := self.startIdx_le.trans (Nat.le_succ _)
        buffer_length := by
          have := self.startIdx_le
          rw [length_append, self.buffer_length, length_singleton]
          omega
        startIdx_of_closed := fun h => absurd h hclosed }
  else none

/-- The value at the counter `i`, while it is held. -/
def getOpt (self : UIntStreamBuffer) (i : ℕ) : Option String :=
  if self.closed ∨ i < self.startIdx ∨ self.readySize ≤ i then none
  else self.buffer[i - self.startIdx]?

/-- Drop the entries up to and including `i`. -/
def releaseIndex (self : UIntStreamBuffer) (i : ℕ) : Option UIntStreamBuffer :=
  if hge : i < self.startIdx then some self
  else if hlt : i < self.readySize then
    some { self with
      buffer := self.buffer.drop (i - self.startIdx + 1)
      startIdx := i + 1
      startIdx_le := hlt
      buffer_length := by
        rw [length_drop, self.buffer_length]
        omega
      startIdx_of_closed := fun h => by
        have := self.startIdx_of_closed h
        omega }
  else none

/-- No producer will read any index again: free what is held. -/
def close (self : UIntStreamBuffer) : UIntStreamBuffer where
  buffer := []
  startIdx := self.readySize
  readySize := self.readySize
  eofReached := self.eofReached
  closed := true
  releases := self.releases
  readySize_lt := self.readySize_lt
  startIdx_le := le_rfl
  buffer_length := by simp
  startIdx_of_closed := fun _ => rfl

/-- The counters from `startIdx` to below `readySize`. -/
def liveWindow (self : UIntStreamBuffer) : IntervalSet Index :=
  if hlt : self.startIdx < self.readySize then
    [closedRun (⟨self.startIdx, hlt.trans self.readySize_lt⟩ : U64)
      (⟨self.readySize - 1, by have := self.readySize_lt; omega⟩ : U64)]
  else []

/-- The indices `guard` admits.  A guard built for another extent panics; one that no bound tells
apart from an index set is read as one. -/
def indexSet (guard : Predicate) : Option (IntervalSet Index) :=
  match guard with
  | .tt => some [⟨none, none⟩]
  | .ff => some []
  | .ofIntervals .uint s => some s
  | .ofIntervals _ s =>
    if s.all fun iv => iv.left.isNone && iv.right.isNone then some (s.map fun _ => ⟨none, none⟩)
    else none
  | _ => none

/-- The counters an interval holds, by its two bounds. -/
def indexRun (iv : Interval Index) : Option (List ℕ) :=
  match iv.left, iv.right with
  | some lo, some hi => some (List.range' lo.value.1 (hi.value.1 + 1 - lo.value.1))
  | _, _ => none

/-- Forget the record of `producer`. -/
def retireProducer (self : UIntStreamBuffer) (producer : String) : UIntStreamBuffer :=
  { self with releases := self.releases.retire producer }

/-- The producing thread has signalled the end of the stream. -/
def endOfStream (self : UIntStreamBuffer) : UIntStreamBuffer := { self with eofReached := true }

section Ops

variable [ScalarOps]

/-- The counters of the window that `producer` has not released. -/
def getElements (self : UIntStreamBuffer) (producer : String) : Option (List ℕ) := do
  let obsolete ← self.releases.of producer
  let live : IntervalSet Index := IntervalOps.difference self.liveWindow (← indexSet obsolete)
  return (← live.mapM indexRun).flatten

/-- The highest counter of the window that `agreed` covers in an unbroken run from its start.  The
outer `Option` is the source's `unreachable!`. -/
def releasedPrefix (self : UIntStreamBuffer) (agreed : IntervalSet Index) : Option (Option ℕ) :=
  let released : IntervalSet Index := IntervalOps.intersection self.liveWindow agreed
  match released.head? with
  | some ⟨some lo, some hi⟩ =>
    if lo.value.1 = self.startIdx then some (some hi.value.1) else some none
  | none => some none
  | some _ => none

/-- Where an induction store built over this source starts. -/
def firstIndexForANewProducer (self : UIntStreamBuffer) : Option ℕ := do
  match ← self.releasedPrefix (← indexSet self.releases.onRegistration) with
  | some last => return last + 1
  | none => return self.startIdx

/-- Start the producers that register from now on where those of `predecessor` stopped. -/
def carryReleaseToNewProducers (self : UIntStreamBuffer) (predecessor : List String) :
    Option UIntStreamBuffer := do
  return { self with releases := ← self.releases.carryToNewProducers predecessor }

/-- Drop what `agreed` lets the buffer drop. -/
def dropAgreed (self : UIntStreamBuffer) (agreed : Predicate) : Option UIntStreamBuffer :=
  if agreed.isTrue then some self.close
  else do
    match ← self.releasedPrefix (← indexSet agreed) with
    | some i => self.releaseIndex i
    | none => return self

/-- Record that `producer` has released `obsolete`, and drop what every producer agrees on. -/
def release (self : UIntStreamBuffer) (producer : String) (obsolete : Predicate) :
    Option UIntStreamBuffer := do
  let self := { self with releases := ← self.releases.record producer obsolete }
  self.dropAgreed (← self.releases.agreed)

end Ops

/-! ## Pushing -/

/-- What a push that does not overflow leaves. -/
structure Pushed (before : UIntStreamBuffer) (value : String) (after : UIntStreamBuffer) :
    Prop where
  releases : after.releases = before.releases
  closed : after.closed = before.closed
  readySize : after.readySize = before.readySize + 1
  startIdx : after.startIdx = if before.closed then before.startIdx + 1 else before.startIdx
  buffer : before.closed = false → after.buffer = before.buffer ++ [value]

variable {self : UIntStreamBuffer} {s : IntervalSet Index}

lemma push_spec (value : String) (hlt : self.readySize + 1 < 2 ^ 64) :
    ∃ self', self.push value = some self' ∧ Pushed self value self' := by
  by_cases hclosed : self.closed = true
  · refine ⟨_, (dif_pos hlt).trans (dif_pos hclosed), rfl, rfl, rfl, by simp [hclosed], ?_⟩
    simp [hclosed]
  · exact ⟨_, (dif_pos hlt).trans (dif_neg hclosed), rfl, rfl, rfl, by simp [hclosed], fun _ => rfl⟩

lemma push_eq_none {value : String} (hle : 2 ^ 64 ≤ self.readySize + 1) : self.push value = none :=
  dif_neg (not_lt.mpr hle)

/-! ## The window -/

lemma mem_liveWindow {i : ℕ} {hi : i < 2 ^ 64} :
    self.liveWindow.Mem (.here (⟨i, hi⟩ : U64)) ↔ self.startIdx ≤ i ∧ i < self.readySize := by
  rw [liveWindow]
  split_ifs with hlt
  · rw [IntervalSet.mem_cons, mem_closedRun_here]
    simp only [IntervalSet.not_mem_nil, or_false]
    omega
  · simp only [IntervalSet.not_mem_nil, false_iff]
    omega

lemma liveWindow_canonical (self : UIntStreamBuffer) : self.liveWindow.Canonical := by
  rw [liveWindow]
  split_ifs with hlt
  · exact closedRun_canonical (show self.startIdx ≤ self.readySize - 1 by omega)
  · exact ⟨by simp, by simp⟩

/-- A set within the window is made of closed runs. -/
lemma runs_of_within (hs : s.Valid)
    (hwithin : ∀ x : Point Index, x.Valid → s.Mem x → self.liveWindow.Mem x) : s.Runs := by
  by_cases hlt : self.startIdx < self.readySize
  · have hwindow : self.liveWindow = [closedRun _ _] := dif_pos hlt
    rw [hwindow] at hwithin
    exact hs.runs fun x hx hmem => by simpa using hwithin x hx hmem
  · have hempty : self.liveWindow = [] := dif_neg hlt
    have hnone : ∀ x : Point Index, x.Valid → s.Mem x → (closedRun (0 : U64) (0 : U64)).Mem x :=
      fun x hx hmem => absurd (hwithin x hx hmem) (by simp [hempty])
    exact hs.runs hnone

@[simp] lemma indexRun_closedRun (a b : Index) :
    indexRun (closedRun a b) = some (List.range' a.1 (b.1 + 1 - a.1)) := rfl

/-- Reading a set run by run lists its indices in order. -/
lemma mapM_indexRun_spec (hs : s.Runs) :
    ∃ runs, s.mapM indexRun = some runs ∧ runs.flatten.Pairwise (· < ·) ∧
      ∀ i, i ∈ runs.flatten ↔ ∃ h : i < 2 ^ 64, s.Mem (.here (⟨i, h⟩ : U64)) := by
  induction s with
  | nil => exact ⟨[], rfl, by simp, by simp⟩
  | cons iv s ih =>
    obtain ⟨a, b, rfl, hab⟩ := hs.closed iv (by simp)
    obtain ⟨runs, hruns, hsorted, hmem⟩ := ih hs.tail
    refine ⟨List.range' a.1 (b.1 + 1 - a.1) :: runs, by simp [hruns], ?_, fun i => ?_⟩
    · rw [flatten_cons, pairwise_append]
      refine ⟨pairwise_lt_range', hsorted, fun i hi j hj => ?_⟩
      obtain ⟨hj64, hj⟩ := (hmem j).mp hj
      have hbj : b.1 < j := hs.lt_of_mem_tail hj
      have hib := mem_range'_1.mp hi
      omega
    · rw [flatten_cons, mem_append, hmem, mem_range'_1]
      simp only [IntervalSet.mem_cons, exists_or]
      refine or_congr_left ⟨fun hi => ?_, fun hi => ?_⟩
      · have := b.2
        exact ⟨by omega, mem_closedRun_here.mpr ⟨hi.1, show i ≤ b.1 by omega⟩⟩
      · obtain ⟨_, hi⟩ := hi
        have := mem_closedRun_here.mp hi
        simp only at this
        omega

lemma indexSet_spec {p : Predicate} (hp : p.IsIndexSet) : ∃ s, indexSet p = some s ∧ s.Canonical ∧
      ∀ {i : ℕ} {h : i < 2 ^ 64}, s.Mem (.here (⟨i, h⟩ : U64)) ↔ i ∈ p.indices := by
  rcases hp.cases with rfl | rfl | ⟨s, rfl, hs⟩
  · refine ⟨_, rfl, ⟨?_, by simp⟩, fun {i h} => ?_⟩
    · simp only [mem_singleton, forall_eq]
      exact ⟨by simp, by simp, by simp⟩
    · rw [Predicate.mem_indices_tt]
      exact ⟨fun _ => h, fun _ => ⟨⟨none, none⟩, by simp, by simp [Interval.Mem]⟩⟩
  · exact ⟨[], rfl, ⟨by simp, by simp⟩, by simp⟩
  · exact ⟨s, rfl, hs.canonical, fun {i h} => by
      rw [Predicate.mem_indices_ofIntervals]
      exact ⟨fun hmem => ⟨h, hmem⟩, fun ⟨_, hmem⟩ => hmem⟩⟩

section Specs

variable [ScalarOps]

/-- **A producer is offered the counters of the window outside its record**, each once and in
order. -/
theorem getElements_spec (self : UIntStreamBuffer) {p : String} {r : Predicate}
    (hp : self.releases.of p = some r) (hr : r.IsIndexSet) :
    ∃ elements, self.getElements p = some elements ∧ elements.Pairwise (· < ·) ∧
      ∀ i, i ∈ elements ↔ self.startIdx ≤ i ∧ i < self.readySize ∧ i ∉ r.indices := by
  obtain ⟨s, hs, hcanonical, hmem⟩ := indexSet_spec hr
  have hvalid := IntervalOps.difference_valid self.liveWindow_canonical hcanonical
  have hdiff : ∀ x : Point Index, x.Valid →
      ((IntervalOps.difference self.liveWindow s).Mem x ↔ self.liveWindow.Mem x ∧ ¬s.Mem x) :=
    fun x hx => IntervalOps.mem_difference self.liveWindow_canonical hcanonical hx
  obtain ⟨runs, hruns, hsorted, helements⟩ :=
    mapM_indexRun_spec (runs_of_within hvalid fun x hx hx' => ((hdiff x hx).mp hx').1)
  refine ⟨runs.flatten, by simp [getElements, hp, hs, hruns], hsorted, fun i => ?_⟩
  rw [helements]
  constructor
  · rintro ⟨hi, hi'⟩
    obtain ⟨hwindow, hnot⟩ := (hdiff (.here (⟨i, hi⟩ : U64)) trivial).mp hi'
    exact ⟨(mem_liveWindow.mp hwindow).1, (mem_liveWindow.mp hwindow).2, mt hmem.mpr hnot⟩
  · rintro ⟨hstart, hready, hnot⟩
    have hi := hready.trans self.readySize_lt
    exact ⟨hi, (hdiff (.here (⟨i, hi⟩ : U64)) trivial).mpr
      ⟨mem_liveWindow.mpr ⟨hstart, hready⟩, mt hmem.mp hnot⟩⟩

omit [ScalarOps] in
/-- The value at an offered counter is the one that was pushed there. -/
lemma getOpt_of_drop {pushed : List String}
    (hbuffer : self.closed = false → self.buffer = pushed.drop self.startIdx) {i : ℕ}
    (hstart : self.startIdx ≤ i) (hready : i < self.readySize) : self.getOpt i = pushed[i]? := by
  have hopen : self.closed = false := by
    by_contra hclosed
    have := self.startIdx_of_closed (by simpa using hclosed)
    omega
  have hguard : ¬(self.closed = true ∨ i < self.startIdx ∨ self.readySize ≤ i) := by
    simp only [hopen, Bool.false_eq_true, false_or]
    omega
  rw [getOpt, if_neg hguard, hbuffer hopen, getElem?_drop, Nat.add_sub_cancel' hstart]

/-- Where the run of the window that `agreed` covers from its start ends. -/
def runEnd (self : UIntStreamBuffer) (o : Option ℕ) : ℕ := o.elim self.startIdx (· + 1)

/-- **The released prefix is covered by the agreement.**  It is all of the run when the
intersection leaves no two intervals that touch. -/
theorem releasedPrefix_spec (self : UIntStreamBuffer) (hs : s.Canonical) {A : Set ℕ}
    (hA : ∀ {i : ℕ} {h : i < 2 ^ 64}, s.Mem (.here (⟨i, h⟩ : U64)) ↔ i ∈ A) :
    ∃ o, self.releasedPrefix s = some o ∧ (∀ last ∈ o, self.startIdx ≤ last) ∧
      self.startIdx ≤ self.runEnd o ∧ self.runEnd o ≤ self.readySize ∧
      (∀ i, self.startIdx ≤ i → i < self.runEnd o → i ∈ A) ∧
      ((IntervalOps.intersection self.liveWindow s).Canonical →
        self.runEnd o < self.readySize → self.runEnd o ∉ A) := by
  have hvalid := IntervalOps.intersection_valid self.liveWindow_canonical.valid hs.valid
  have hinter : ∀ x : Point Index, x.Valid →
      ((IntervalOps.intersection self.liveWindow s).Mem x ↔ self.liveWindow.Mem x ∧ s.Mem x) :=
    fun x hx => IntervalOps.mem_intersection self.liveWindow_canonical.valid hs.valid hx
  have hruns := runs_of_within hvalid fun x hx hx' => ((hinter x hx).mp hx').1
  have hcovered : ∀ (i : ℕ) (hi : i < 2 ^ 64),
      (IntervalOps.intersection self.liveWindow s).Mem (.here (⟨i, hi⟩ : U64)) ↔
        (self.startIdx ≤ i ∧ i < self.readySize) ∧ i ∈ A := fun i hi => by
    rw [hinter (.here (⟨i, hi⟩ : U64)) trivial, mem_liveWindow, hA]
  have hbound := self.readySize_lt
  rw [releasedPrefix]
  cases hreleased : IntervalOps.intersection self.liveWindow s with
  | nil =>
    refine ⟨none, rfl, by simp, le_rfl, self.startIdx_le, fun i hi hi' => ?_, fun _ hlt hmem => ?_⟩
    · exact absurd hi' (not_lt.mpr hi)
    · have := (hcovered _ (hlt.trans hbound)).mpr ⟨⟨le_rfl, hlt⟩, hmem⟩
      simp [hreleased] at this
  | cons iv rest =>
    rw [hreleased] at hruns hcovered
    obtain ⟨a, b, rfl, hab⟩ := hruns.closed iv (by simp)
    have hrun : ∀ i : Index, a.1 ≤ i.1 → i.1 ≤ b.1 →
        (self.startIdx ≤ i.1 ∧ i.1 < self.readySize) ∧ i.1 ∈ A := fun i hai hib =>
      (hcovered i.1 i.2).mp ⟨_, mem_cons_self .., mem_closedRun_here.mpr ⟨hai, hib⟩⟩
    by_cases hstart : a.1 = self.startIdx
    · refine ⟨some b.1, by simp [closedRun, hstart], ?_, ?_, ?_, ?_, ?_⟩
      · simp only [Option.mem_def, Option.some.injEq, forall_eq']
        omega
      · simp only [runEnd, elim_some]
        omega
      · exact (hrun b hab le_rfl).1.2
      · intro i hi hi'
        simp only [runEnd, elim_some] at hi'
        have hi64 : i < 2 ^ 64 := by
          have := b.2
          omega
        exact (hrun (⟨i, hi64⟩ : U64) (show a.1 ≤ i by omega) (show i ≤ b.1 by omega)).2
      · intro hcanonical hlt hmem
        simp only [runEnd, elim_some] at hlt hmem
        have hi64 : b.1 + 1 < 2 ^ 64 := hlt.trans hbound
        exact hruns.not_mem_succ hcanonical rfl ((hcovered _ hi64).mpr ⟨⟨by omega, hlt⟩, hmem⟩)
    · refine ⟨none, by simp [closedRun, hstart], by simp, le_rfl, self.startIdx_le,
        fun i hi hi' => ?_, fun _ hlt hmem => ?_⟩
      · exact absurd hi' (not_lt.mpr hi)
      · have hlow := (hrun a le_rfl hab).1.1
        have hle : a.1 ≤ self.startIdx :=
          hruns.le_of_mem ((hcovered _ (hlt.trans hbound)).mpr ⟨⟨le_rfl, hlt⟩, hmem⟩)
        omega

/-- **A new producer starts past the covered run.** -/
theorem firstIndexForANewProducer_spec (h : self.releases.WellFormed) :
    ∃ first, self.firstIndexForANewProducer = some first ∧
      self.startIdx ≤ first ∧ first ≤ self.readySize ∧
      (∀ i, self.startIdx ≤ i → i < first → i ∈ self.releases.readers.start) ∧
      ((∀ {a b : IntervalSet Index}, a.Canonical → b.Canonical →
          (IntervalOps.intersection a b).Canonical) →
        first < self.readySize → first ∉ self.releases.readers.start) := by
  obtain ⟨s, hs, hcanonical, hmem⟩ := indexSet_spec h.onRegistration
  obtain ⟨o, ho, -, hle, hready, hcovered, hnext⟩ := self.releasedPrefix_spec hcanonical hmem
  refine ⟨self.runEnd o, ?_, hle, hready, hcovered, fun hjoined =>
    hnext (hjoined self.liveWindow_canonical hcanonical)⟩
  simp only [firstIndexForANewProducer, hs, ho, bind_eq_bind, bind_some]
  cases o <;> rfl

/-- `after` is `before` with counters of `A` dropped from the front of its window. -/
structure Dropped (before after : UIntStreamBuffer) (A : Set ℕ) : Prop where
  releases : after.releases = before.releases
  readySize : after.readySize = before.readySize
  startIdx_le : before.startIdx ≤ after.startIdx
  covered : ∀ i, before.startIdx ≤ i → i < after.startIdx → i ∈ A
  closed : before.closed = true → after.closed = true
  closed_cases : after.closed = true → before.closed = true ∨ ∀ i < 2 ^ 64, i ∈ A
  buffer : after.closed = false →
    after.buffer = before.buffer.drop (after.startIdx - before.startIdx)

/-- **Only counters of the agreement are dropped.** -/
theorem dropAgreed_spec (self : UIntStreamBuffer) {r : Predicate} (hr : r.IsIndexSet) :
    ∃ self', self.dropAgreed r = some self' ∧ Dropped self self' r.indices := by
  by_cases htrue : r.isTrue = true
  · refine ⟨self.close, if_pos htrue, rfl, rfl, self.startIdx_le, fun i _ hi => ?_, fun _ => rfl,
      fun _ => .inr fun i hi => hr.mem_of_isTrue htrue hi, by simp [close]⟩
    exact hr.mem_of_isTrue htrue (hi.trans self.readySize_lt)
  · obtain ⟨s, hs, hcanonical, hmem⟩ := indexSet_spec hr
    obtain ⟨o, ho, hlast, hle, hready, hcovered, -⟩ := self.releasedPrefix_spec hcanonical hmem
    simp only [dropAgreed, htrue, hs, ho, bind_eq_bind, bind_some, Bool.false_eq_true, if_false]
    cases o with
    | none =>
      exact ⟨self, rfl, rfl, rfl, le_rfl, fun i hi hi' => absurd hi' (not_lt.mpr hi), id, .inl,
        by simp⟩
    | some last =>
      have hge : ¬last < self.startIdx := not_lt.mpr (hlast last rfl)
      have hlt : last < self.readySize := hready
      refine ⟨_, (dif_neg hge).trans (dif_pos hlt), rfl, rfl, hle, hcovered, id, .inl, fun _ => ?_⟩
      have heq : last - self.startIdx + 1 = last + 1 - self.startIdx := by omega
      exact congrArg (self.buffer.drop ·) heq

/-- **A release records and drops what every reader has then released.** -/
theorem release_spec (h : self.releases.WellFormed) (p : String) {g : Predicate} (hg : g.IsIndexSet)
    :
    ∃ releases self', self.release p g = some self' ∧ releases.WellFormed ∧
      releases.readers = self.releases.readers.record p g.indices ∧
      Dropped { self with releases := releases } self' releases.readers.agreed := by
  obtain ⟨releases, hrecord, hwf, hreaders⟩ := ProducerReleases.record_spec h p hg
  obtain ⟨r, hagreed, hset, hindices⟩ := ProducerReleases.agreed_spec hwf
  obtain ⟨self', hdrop, hdropped⟩ := dropAgreed_spec { self with releases := releases } hset
  refine ⟨releases, self', ?_, hwf, hreaders, hindices ▸ hdropped⟩
  simp [release, hrecord, hagreed, hdrop]

end Specs

end UIntStreamBuffer

end Cambra
