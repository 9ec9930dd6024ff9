import Cambra.Lib.IntervalList
import Cambra.Source.Buffer

/-!
# What a stream source offers its readers

Whole runs of a `UIntStreamBuffer`: pushes, registrations, releases, carries, retirements and the
end of the stream, in any order.  A `Moment` of a run is the buffer together with the `History` it
stands for: everything pushed, what each reader has released, and where the window was when each
reader registered.

Every index a reader is owed is offered as long as only released indices are dropped
(`Moment.Sound.offers_iff`), and every step drops only indices that all readers have released, with
one exception: a closed buffer drops what is pushed, whoever has registered since it closed
(`Moment.Sound.drops_iff`).  A registration never reopens a buffer, so what is offered is right
along a run exactly when no element is pushed to a closed buffer under a reader that has not
released it.

The first index of a new producer is bounded by what has arrived: it is the least index such a
producer could be offered exactly when one of the buffered indices, or the next to arrive, is not
in the carried set and the buffer is not closed.
-/

namespace Cambra

open UIntStreamBuffer Option

/-! ## Runs -/

/-- What can happen to a buffer.  A producer registers by releasing nothing. -/
inductive StreamOp where
  | push (value : String)
  | release (producer : String) (obsolete : Predicate)
  | carry (predecessor : List String)
  | retire (producer : String)
  | endOfStream

/-- The guards of the operation are index sets. -/
def StreamOp.Indexed : StreamOp → Prop
  | .release _ obsolete => obsolete.IsIndexSet
  | _ => True

section Steps

variable [ScalarOps]

/-- One operation on the buffer. -/
def UIntStreamBuffer.step (self : UIntStreamBuffer) : StreamOp → Option UIntStreamBuffer
  | .push value => self.push value
  | .release producer obsolete => self.release producer obsolete
  | .carry predecessor => self.carryReleaseToNewProducers predecessor
  | .retire producer => some (self.retireProducer producer)
  | .endOfStream => some self.endOfStream

/-- The operations, one after another. -/
def UIntStreamBuffer.run (self : UIntStreamBuffer) (ops : List StreamOp) :
    Option UIntStreamBuffer :=
  ops.foldlM UIntStreamBuffer.step self

/-- `i` is offered to `q` after it registers now and more happens, while `q` is not retired. -/
def UIntStreamBuffer.CouldBeOffered (self : UIntStreamBuffer) (q : String) (i : ℕ) : Prop :=
  ∃ later self' elements, (∀ op ∈ later, op.Indexed ∧ op ≠ .retire q) ∧
    self.run (.release q .ff :: later) = some self' ∧ self'.getElements q = some elements ∧
    i ∈ elements

end Steps

/-! ## Histories -/

/-- What has happened to a source. -/
structure History where
  /-- Every value pushed, by its index. -/
  pushed : List String
  readers : Readers
  /-- The first index not yet dropped when the reader registered. -/
  entered : String → ℕ
  /-- How much had been pushed when the reader registered. -/
  registeredAt : String → ℕ

namespace History

/-- Nothing has happened. -/
def empty : History := ⟨[], .none, fun _ => 0, fun _ => 0⟩

/-- What an operation adds, on a buffer that has dropped everything below `startIdx`. -/
def step (self : History) (startIdx : ℕ) : StreamOp → History
  | .push value => { self with pushed := self.pushed ++ [value] }
  | .release producer obsolete =>
    let known := (self.readers.released producer).isSome
    { self with
      readers := self.readers.record producer obsolete.indices
      entered := if known then self.entered else Function.update self.entered producer startIdx
      registeredAt := if known then self.registeredAt
        else Function.update self.registeredAt producer self.pushed.length }
  | .carry predecessor => { self with readers := self.readers.carry predecessor }
  | .retire producer => { self with readers := self.readers.retire producer }
  | .endOfStream => self

end History

/-- A moment of a run. -/
structure Moment where
  buffer : UIntStreamBuffer
  history : History

namespace Moment

/-- Before anything has happened. -/
def start : Moment := ⟨.new, .empty⟩

/-! ## The invariant of a run -/

/-- The buffer holds what the history says. -/
structure Sound (m : Moment) : Prop where
  wellFormed : m.buffer.releases.WellFormed
  readers : m.buffer.releases.readers = m.history.readers
  readySize : m.buffer.readySize = m.history.pushed.length
  buffer : m.buffer.closed = false → m.buffer.buffer = m.history.pushed.drop m.buffer.startIdx
  entered : ∀ p, m.history.entered p ≤ m.buffer.startIdx
  registeredAt : ∀ p, m.history.entered p ≤ m.history.registeredAt p

lemma start_sound : start.Sound :=
  ⟨ProducerReleases.default_wellFormed, ProducerReleases.readers_default, rfl, fun _ => rfl,
    fun _ => le_rfl, fun _ => le_rfl⟩

/-- The operation overflows a counter of the buffer. -/
def Overflows (m : Moment) (op : StreamOp) : Prop :=
  (∃ value, op = .push value) ∧ 2 ^ 64 ≤ m.buffer.readySize + 1

/-- The indices dropped between the two moments are released by every reader of the second. -/
def DropsReleased (m m' : Moment) : Prop := ∀ i, m.buffer.startIdx ≤ i → i < m'.buffer.startIdx →
    ∀ p A, m'.history.readers.released p = some A → i ∈ A

/-- A push onto a closed buffer. -/
def ClosedPush (m : Moment) (op : StreamOp) : Prop :=
  (∃ value, op = .push value) ∧ m.buffer.closed = true

/-- **What a step does.**  It succeeds unless it overflows, keeps the buffer sound, and moves the
front of the window only over indices every reader has released, unless it is a push onto a closed
buffer, which moves it by one. -/
structure Steps (m : Moment) (op : StreamOp) (m' : Moment) : Prop where
  history : m'.history = m.history.step m.buffer.startIdx op
  sound : m'.Sound
  startIdx_le : m.buffer.startIdx ≤ m'.buffer.startIdx
  drops : ¬ClosedPush m op → DropsReleased m m'
  closedPush : ClosedPush m op → m'.buffer.startIdx = m.buffer.startIdx + 1
  closed : m.buffer.closed = true → m'.buffer.closed = true
  closes : m'.buffer.closed = true → m.buffer.closed = true ∨
    ∀ i < 2 ^ 64, ∀ p A, m'.history.readers.released p = some A → i ∈ A

variable {m m' : Moment} {op : StreamOp} {A : Set ℕ} {q : String}

lemma DropsReleased.of_startIdx_eq (h : m'.buffer.startIdx = m.buffer.startIdx) :
    DropsReleased m m' := fun _ hi hi' => absurd (h ▸ hi') (not_lt.mpr hi)

lemma Steps.still (hop : ∀ value, op ≠ .push value)
    (hhistory : m'.history = m.history.step m.buffer.startIdx op) (hsound : m'.Sound)
    (hstart : m'.buffer.startIdx = m.buffer.startIdx)
    (hclosed : m'.buffer.closed = m.buffer.closed) : Steps m op m' :=
  ⟨hhistory, hsound, hstart.ge, fun _ => .of_startIdx_eq hstart,
    fun ⟨⟨value, h⟩, _⟩ => absurd h (hop value), hclosed.trans,
    fun h => .inl (hclosed.symm.trans h)⟩

/-- What was dropped under a reader since it registered is in its record. -/
def Kept (m : Moment) : Prop := ∀ p A, m.history.readers.released p = some A →
    ∀ i, m.history.entered p ≤ i → i < m.buffer.startIdx → i ∈ A

/-- Who reads after an operation: a reader from before, whose record only grew, or one that
registered with it. -/
lemma released_step {h : History} {startIdx : ℕ} {p : String} {A' : Set ℕ}
    (hp : (h.step startIdx op).readers.released p = some A') :
    (∃ A, h.readers.released p = some A ∧ A ⊆ A' ∧ (h.step startIdx op).entered p = h.entered p) ∨
      (h.readers.released p = none ∧ (h.step startIdx op).entered p = startIdx) := by
  cases op with
  | push value => exact .inl ⟨A', hp, subset_rfl, rfl⟩
  | release q g =>
    simp only [History.step, Readers.record, Function.update_apply] at hp ⊢
    by_cases hpq : p = q
    · subst hpq
      simp only [if_true, Option.some.injEq] at hp ⊢
      cases hold : h.readers.released p with
      | none => exact .inr ⟨rfl, by simp⟩
      | some A =>
        refine .inl ⟨A, rfl, ?_, by simp⟩
        rw [← hp, hold]
        exact Set.subset_union_left
    · simp only [hpq, if_false] at hp
      refine .inl ⟨A', hp, subset_rfl, ?_⟩
      split_ifs <;> simp [hpq]
  | carry predecessor => exact .inl ⟨A', hp, subset_rfl, rfl⟩
  | retire q =>
    simp only [History.step, Readers.retire, Function.update_apply] at hp
    split_ifs at hp
    exact .inl ⟨A', hp, subset_rfl, rfl⟩
  | endOfStream => exact .inl ⟨A', hp, subset_rfl, rfl⟩

lemma Kept.step (h : m.Kept) (hsteps : Steps m op m') (hdrops : DropsReleased m m') : m'.Kept := by
  intro p A' hp i hentered hi
  by_cases hold : i < m.buffer.startIdx
  · have hp' := hp
    rw [hsteps.history] at hp' hentered
    rcases released_step hp' with ⟨A, hA, hsub, hsame⟩ | ⟨-, hnew⟩
    · exact hsub (h p A hA i (hsame ▸ hentered) hold)
    · omega
  · exact hdrops i (not_lt.mp hold) hi p A' hp

/-- A reader that is not retired keeps its record. -/
lemma released_step_of_released {h : History} {startIdx : ℕ} (hq : h.readers.released q = some A)
    (hop : op ≠ .retire q) : ∃ A', (h.step startIdx op).readers.released q = some A' ∧ A ⊆ A' := by
  cases op with
  | release p g =>
    simp only [History.step, Readers.record, Function.update_apply]
    by_cases hpq : q = p
    · subst hpq
      exact ⟨_, if_pos rfl, by simp [hq]⟩
    · exact ⟨A, (if_neg hpq).trans hq, subset_rfl⟩
  | retire p =>
    have hpq : q ≠ p := fun heq => hop (by rw [heq])
    refine ⟨A, ?_, subset_rfl⟩
    simpa only [History.step, Readers.retire, Function.update_apply, hpq, if_false] using hq
  | _ => exact ⟨A, hq, subset_rfl⟩

lemma released_register (hsteps : Steps m (.release q .ff) m')
    (hnew : m.history.readers.released q = none) :
    m'.history.readers.released q = some m.history.readers.start := by
  rw [hsteps.history]
  simp [History.step, Readers.record, hnew]

/-- **A step drops only what every reader has released**, unless it pushes onto a closed buffer an
element some reader has not released. -/
theorem Sound.drops_iff (h : m.Sound) (hsteps : Steps m op m') :
    DropsReleased m m' ↔ (ClosedPush m op →
      ∀ p A, m.history.readers.released p = some A → m.history.pushed.length ∈ A) := by
  by_cases hpush : ClosedPush m op
  · have hstart : m.buffer.startIdx = m.history.pushed.length :=
      (m.buffer.startIdx_of_closed hpush.2).trans h.readySize
    have hreaders : m'.history.readers = m.history.readers := by
      obtain ⟨⟨value, rfl⟩, _⟩ := hpush
      rw [hsteps.history]
      rfl
    have hnext := hsteps.closedPush hpush
    constructor
    · intro hdrops _ p A hp
      exact hdrops _ hstart.le (by omega) p A (hreaders ▸ hp)
    · intro hall i hi hi' p A hp
      obtain rfl : i = m.history.pushed.length := by omega
      exact hall hpush p A (hreaders ▸ hp)
  · exact ⟨fun _ hpush' => absurd hpush' hpush, fun _ => hsteps.drops hpush⟩

/-! ## Steps -/

section Steps

variable [ScalarOps]

/-- One operation, and what it adds to the history. -/
def step (m : Moment) (op : StreamOp) : Option Moment := do
  return ⟨← m.buffer.step op, m.history.step m.buffer.startIdx op⟩

/-- The moment after the operations, from the start. -/
def after (ops : List StreamOp) : Option Moment := ops.foldlM step start

lemma step_eq_some {buffer : UIntStreamBuffer} (h : m.buffer.step op = some buffer) :
    m.step op = some ⟨buffer, m.history.step m.buffer.startIdx op⟩ := by simp [step, h]

lemma Sound.steps_push (h : m.Sound) (value : String) (hlt : m.buffer.readySize + 1 < 2 ^ 64) :
    ∃ m', m.step (.push value) = some m' ∧ Steps m (.push value) m' := by
  obtain ⟨buffer, hpush, hpushed⟩ := push_spec value hlt
  have hlen : m.buffer.startIdx ≤ m.history.pushed.length := h.readySize ▸ m.buffer.startIdx_le
  have hstart : m.buffer.startIdx ≤ buffer.startIdx := by
    rw [hpushed.startIdx]
    split_ifs <;> omega
  refine ⟨_, step_eq_some hpush, rfl, ⟨?_, ?_, ?_, fun hopen => ?_, ?_, h.registeredAt⟩, hstart,
    fun hnot => ?_, fun hclosed => ?_, fun hclosed => hpushed.closed.trans hclosed,
    fun hclosed => .inl (hpushed.closed.symm.trans hclosed)⟩
  · rw [hpushed.releases]
    exact h.wellFormed
  · rw [hpushed.releases]
    exact h.readers
  · simp [History.step, hpushed.readySize, h.readySize]
  · have hbefore : m.buffer.closed = false := hpushed.closed.symm.trans hopen
    simp only [History.step, hpushed.buffer hbefore, hpushed.startIdx, hbefore, h.buffer hbefore,
      Bool.false_eq_true, if_false, List.drop_append_of_le_length hlen]
  · exact fun p => (h.entered p).trans hstart
  · have hopen : ¬m.buffer.closed = true := fun hclosed => hnot ⟨⟨value, rfl⟩, hclosed⟩
    refine DropsReleased.of_startIdx_eq ?_
    simp [hpushed.startIdx, hopen]
  · simp [hpushed.startIdx, hclosed.2]

lemma Sound.steps_release (h : m.Sound) (p : String) {g : Predicate} (hg : g.IsIndexSet) :
    ∃ m', m.step (.release p g) = some m' ∧ Steps m (.release p g) m' := by
  obtain ⟨releases, buffer, hrelease, hwf, hreaders, hdropped⟩ := release_spec h.wellFormed p hg
  rw [h.readers] at hreaders
  have hstart : m.buffer.startIdx ≤ buffer.startIdx := hdropped.startIdx_le
  refine ⟨_, step_eq_some hrelease, rfl, ⟨?_, ?_, ?_, fun hopen => ?_, fun q => ?_, fun q => ?_⟩,
    hstart, fun _ => ?_, ?_, hdropped.closed, fun hclosed => ?_⟩
  · rw [hdropped.releases]
    exact hwf
  · rw [hdropped.releases]
    exact hreaders
  · exact hdropped.readySize.trans h.readySize
  · have hbefore : m.buffer.closed = false := by
      by_contra hclosed
      have := hdropped.closed (by simpa using hclosed)
      simp [this] at hopen
    have hbuffer := hdropped.buffer hopen
    simp only [h.buffer hbefore, List.drop_drop] at hbuffer
    rw [hbuffer, Nat.add_sub_cancel' hstart]
    rfl
  · have := h.entered q
    simp only [History.step]
    split_ifs
    · omega
    · rw [Function.update_apply]
      split_ifs <;> omega
  · have hlen : m.buffer.startIdx ≤ m.history.pushed.length := h.readySize ▸ m.buffer.startIdx_le
    have := h.registeredAt q
    simp only [History.step]
    split_ifs
    · exact this
    · simp only [Function.update_apply]
      split_ifs <;> assumption
  · intro i hi hi' q A hq
    have hreleased : releases.readers.released q = some A := hreaders ▸ hq
    exact Readers.mem_of_mem_agreed (hdropped.covered i hi hi') hreleased
  · rintro ⟨⟨_, ⟨⟩⟩, _⟩
  · refine (hdropped.closed_cases hclosed).imp_right fun hall i hi q A hq => ?_
    have hreleased : releases.readers.released q = some A := hreaders ▸ hq
    exact Readers.mem_of_mem_agreed (hall i hi) hreleased

/-- **A step of a sound moment**: it succeeds unless it overflows. -/
theorem Sound.steps (h : m.Sound) (hop : op.Indexed) (hbound : ¬Overflows m op) :
    ∃ m', m.step op = some m' ∧ Steps m op m' := by
  cases op with
  | push value =>
    exact h.steps_push value (not_le.mp fun hle => hbound ⟨⟨value, rfl⟩, hle⟩)
  | release p g => exact h.steps_release p hop
  | carry predecessor =>
    obtain ⟨releases, hcarry, hwf, hreaders⟩ := ProducerReleases.carry_spec h.wellFormed predecessor
    have hstep : m.buffer.step (.carry predecessor) =
        some { m.buffer with releases := releases } := by
      simp [UIntStreamBuffer.step, carryReleaseToNewProducers, hcarry]
    refine ⟨_, step_eq_some hstep, .still (fun _ h => by cases h) rfl
      ⟨hwf, ?_, h.readySize, h.buffer, h.entered, h.registeredAt⟩ rfl rfl⟩
    simp [History.step, hreaders, h.readers]
  | retire p =>
    refine ⟨_, step_eq_some rfl, .still (fun _ h => by cases h) rfl
      ⟨h.wellFormed.retire p, ?_, h.readySize, h.buffer, h.entered, h.registeredAt⟩ rfl rfl⟩
    simp [History.step, retireProducer, ProducerReleases.retire_readers, h.readers]
  | endOfStream =>
    exact ⟨_, step_eq_some rfl, .still (fun _ h => by cases h) rfl { h with } rfl rfl⟩

lemma not_overflows_of_step (hstep : m.step op = some m') : ¬Overflows m op := by
  rintro ⟨⟨value, rfl⟩, hle⟩
  simp [step, UIntStreamBuffer.step, push_eq_none hle] at hstep

lemma Sound.steps_of_step (h : m.Sound) (hop : op.Indexed) (hstep : m.step op = some m') :
    Steps m op m' := by
  obtain ⟨m₁, hm₁, hsteps⟩ := h.steps hop (not_overflows_of_step hstep)
  obtain rfl : m₁ = m' := mem_unique hm₁ hstep
  exact hsteps

/-! ## What is offered -/

/-- The readers of `m` are offered the indices pushed and not dropped before they registered that
are outside their records, each with the value pushed there. -/
def OffersUnreleased (m : Moment) : Prop := ∀ p A, m.history.readers.released p = some A →
    ∃ elements, m.buffer.getElements p = some elements ∧ elements.Pairwise (· < ·) ∧
      (∀ i, i ∈ elements ↔ m.history.entered p ≤ i ∧ i < m.history.pushed.length ∧ i ∉ A) ∧
      ∀ i ∈ elements, m.buffer.getOpt i = m.history.pushed[i]?

/-- What was pushed after a reader registered and is outside its record is offered to it. -/
def OffersArrivals (m : Moment) : Prop :=
  ∀ p A i, m.history.readers.released p = some A → m.history.registeredAt p ≤ i →
    i < m.history.pushed.length → i ∉ A →
    ∃ elements, m.buffer.getElements p = some elements ∧ i ∈ elements

/-- What `get_elements` gives a reader, in terms of its record. -/
lemma Sound.getElements (h : m.Sound) {p : String} (hp : m.history.readers.released p = some A) :
    ∃ elements, m.buffer.getElements p = some elements ∧ elements.Pairwise (· < ·) ∧
      ∀ i, i ∈ elements ↔ m.buffer.startIdx ≤ i ∧ i < m.history.pushed.length ∧ i ∉ A := by
  rw [← h.readers] at hp
  obtain ⟨r, hr, rfl⟩ := ProducerReleases.readers_released.mp hp
  rw [← h.readySize]
  exact m.buffer.getElements_spec hr (h.wellFormed.record hr)

/-- **The readers are offered what they are owed** exactly when nothing they had not released was
dropped. -/
theorem Sound.offers_iff (h : m.Sound) : m.OffersUnreleased ↔ m.Kept := by
  have hlen : m.buffer.startIdx ≤ m.history.pushed.length := h.readySize ▸ m.buffer.startIdx_le
  constructor
  · intro hoffers p A hp i hentered hi
    obtain ⟨elements, helements, -, hmem⟩ := h.getElements hp
    obtain ⟨elements', helements', -, howed, -⟩ := hoffers p A hp
    obtain rfl : elements = elements' := mem_unique helements helements'
    by_contra hnot
    have := (hmem i).mp ((howed i).mpr ⟨hentered, by omega, hnot⟩)
    omega
  · intro hkept p A hp
    obtain ⟨elements, helements, hsorted, hmem⟩ := h.getElements hp
    refine ⟨elements, helements, hsorted, fun i => ?_, fun i hi => ?_⟩
    · rw [hmem]
      constructor
      · rintro ⟨hstart, hi, hnot⟩
        exact ⟨(h.entered p).trans hstart, hi, hnot⟩
      · rintro ⟨hentered, hi, hnot⟩
        exact ⟨not_lt.mp fun hlt => hnot (hkept p A hp i hentered hlt), hi, hnot⟩
    · obtain ⟨hstart, hready, -⟩ := (hmem i).mp hi
      exact getOpt_of_drop h.buffer hstart (h.readySize ▸ hready)

lemma Sound.offersArrivals (h : m.Sound) (hoffers : m.OffersUnreleased) : m.OffersArrivals := by
  intro p A i hp hregistered hi hnot
  obtain ⟨elements, helements, -, hmem, -⟩ := hoffers p A hp
  exact ⟨elements, helements, (hmem i).mpr ⟨(h.registeredAt p).trans hregistered, hi, hnot⟩⟩

lemma after_append_singleton (ops : List StreamOp) (op : StreamOp) :
    after (ops ++ [op]) = (after ops).bind (·.step op) := by simp [after, List.foldlM_append]

variable {ops : List StreamOp} {i : ℕ}

lemma sound_after (hops : ∀ op ∈ ops, op.Indexed) (hm : after ops = some m) : m.Sound := by
  induction ops using List.reverseRecOn generalizing m with
  | nil =>
    obtain rfl : start = m := Option.some.inj hm
    exact start_sound
  | append_singleton ops op ih =>
    rw [after_append_singleton] at hm
    obtain ⟨m₀, hm₀, hstep⟩ := bind_eq_some_iff.mp hm
    have hsound := ih (fun op hop => hops op (by simp [hop])) hm₀
    exact (hsound.steps_of_step (hops op (by simp)) hstep).sound

/-- Along a run that drops only what is released, nothing a reader is owed is dropped. -/
lemma kept_after (hops : ∀ op ∈ ops, op.Indexed)
    (hdrops : ∀ pre op post m m', ops = pre ++ op :: post → after pre = some m →
      m.step op = some m' → DropsReleased m m') (hm : after ops = some m) : m.Kept := by
  induction ops using List.reverseRecOn generalizing m with
  | nil =>
    obtain rfl : start = m := Option.some.inj hm
    intro p A hp
    cases hp
  | append_singleton ops op ih =>
    rw [after_append_singleton] at hm
    obtain ⟨m₀, hm₀, hstep⟩ := bind_eq_some_iff.mp hm
    have hops₀ : ∀ op ∈ ops, op.Indexed := fun op hop => hops op (by simp [hop])
    have hkept := ih hops₀ (fun pre op' post m m' heq => by
      subst heq
      exact hdrops pre op' (post ++ [op]) m m' (by simp)) hm₀
    exact hkept.step ((sound_after hops₀ hm₀).steps_of_step (hops op (by simp)) hstep)
      (hdrops ops op [] m₀ m rfl hm₀ hstep)

/-! ## Where a new producer starts -/

lemma run_eq (m : Moment) : m.buffer.run ops = (ops.foldlM step m).map (·.buffer) := by
  induction ops generalizing m with
  | nil => rfl
  | cons op ops ih =>
    rw [UIntStreamBuffer.run, List.foldlM_cons, List.foldlM_cons, step]
    cases m.buffer.step op with
    | none => rfl
    | some buffer => exact ih ⟨buffer, _⟩

lemma Sound.run (h : m.Sound) (hops : ∀ op ∈ ops, op.Indexed ∧ op ≠ .retire q)
    (hrun : ops.foldlM step m = some m') (hq : m.history.readers.released q = some A) :
    m'.Sound ∧ m.buffer.startIdx ≤ m'.buffer.startIdx ∧
      (m.buffer.closed = true → m'.buffer.closed = true) ∧
      ∃ A', m'.history.readers.released q = some A' ∧ A ⊆ A' := by
  induction ops generalizing m A with
  | nil =>
    obtain rfl : m = m' := Option.some.inj hrun
    exact ⟨h, le_rfl, id, A, hq, subset_rfl⟩
  | cons op ops ih =>
    obtain ⟨m₁, hm₁, hrest⟩ := bind_eq_some_iff.mp hrun
    obtain ⟨hindexed, hretire⟩ := hops op (by simp)
    have hsteps := h.steps_of_step hindexed hm₁
    obtain ⟨A₁, hA₁, hsub⟩ : ∃ A₁, m₁.history.readers.released q = some A₁ ∧ A ⊆ A₁ := by
      rw [hsteps.history]
      exact released_step_of_released hq hretire
    obtain ⟨hsound, hle, hclosed, A', hA', hsub'⟩ :=
      ih hsteps.sound (fun op hop => hops op (by simp [hop])) hrest hA₁
    exact ⟨hsound, hsteps.startIdx_le.trans hle, fun hc => hclosed (hsteps.closed hc), A', hA',
      hsub.trans hsub'⟩

/-- What a producer registering now could be offered lies in the open window or past it, outside
the carried set. -/
lemma Sound.of_couldBeOffered (h : m.Sound) (hnew : m.history.readers.released q = none)
    (hi : m.buffer.CouldBeOffered q i) :
    m.buffer.closed = false ∧ m.buffer.startIdx ≤ i ∧ i + 1 < 2 ^ 64 ∧
      i ∉ m.history.readers.start := by
  obtain ⟨later, buffer, elements, hlater, hrun, helements, hmem⟩ := hi
  obtain ⟨m', hm', rfl⟩ := map_eq_some_iff.mp (m.run_eq ▸ hrun)
  obtain ⟨m₁, hm₁, hrest⟩ := bind_eq_some_iff.mp hm'
  have hindexed : (StreamOp.release q .ff).Indexed := Predicate.isIndexSet_ff
  have hsteps := h.steps_of_step hindexed hm₁
  obtain ⟨hsound, hle, hclosed, A, hA, hsub⟩ :=
    hsteps.sound.run hlater hrest (released_register hsteps hnew)
  obtain ⟨elements', helements', -, hoffered⟩ := hsound.getElements hA
  obtain rfl : elements = elements' := mem_unique helements helements'
  obtain ⟨hstart, hlt, hnot⟩ := (hoffered i).mp hmem
  have hbound := m'.buffer.readySize_lt
  have hready := hsound.readySize
  refine ⟨?_, hsteps.startIdx_le.trans (hle.trans hstart), by omega, fun hcarried =>
    hnot (hsub hcarried)⟩
  by_contra hnotopen
  have := m'.buffer.startIdx_of_closed (hclosed (hsteps.closed (by simpa using hnotopen)))
  omega

/-- An index of an open window is offered to the readers that have not released it, and so is the
next one to arrive. -/
lemma Sound.exists_offer (h : m.Sound) (hq : m.history.readers.released q = some A)
    (hopen : m.buffer.closed = false) (hstart : m.buffer.startIdx ≤ i)
    (hle : i ≤ m.history.pushed.length) (hbound : i + 1 < 2 ^ 64) (hnot : i ∉ A) :
    ∃ (later : List StreamOp) (m' : Moment) (elements : List ℕ),
      (∀ op ∈ later, op.Indexed ∧ op ≠ .retire q) ∧ later.foldlM step m = some m' ∧
      m'.buffer.getElements q = some elements ∧ i ∈ elements := by
  rcases hle.lt_or_eq with hlt | rfl
  · obtain ⟨elements, helements, -, hmem⟩ := h.getElements hq
    exact ⟨[], m, elements, by simp, rfl, helements, (hmem i).mpr ⟨hstart, hlt, hnot⟩⟩
  obtain ⟨m', hm', hsteps⟩ := h.steps_push "" (by rwa [h.readySize])
  have hq' : m'.history.readers.released q = some A := by
    rw [hsteps.history]
    exact hq
  have hpushed : m'.history.pushed = m.history.pushed ++ [""] := by
    rw [hsteps.history]
    rfl
  have hstart' : m'.buffer.startIdx ≤ m.history.pushed.length := by
    by_contra hlt
    have hnotClosed : ¬ClosedPush m (.push "") := fun hpush =>
      absurd hpush.2 (by simp [hopen])
    exact hnot (hsteps.drops hnotClosed _ hstart (not_le.mp hlt) q A hq')
  obtain ⟨elements, helements, -, hmem⟩ := hsteps.sound.getElements hq'
  refine ⟨[.push ""], m', elements, by simp [StreamOp.Indexed], by simp [hm'], helements, ?_⟩
  exact (hmem _).mpr ⟨hstart', by simp [hpushed], hnot⟩

/-- Every index of an open window, and the next one to arrive, is offered to a producer registering
now unless it is carried as released. -/
lemma Sound.couldBeOffered (h : m.Sound) (hnew : m.history.readers.released q = none)
    (hopen : m.buffer.closed = false) (hstart : m.buffer.startIdx ≤ i)
    (hle : i ≤ m.history.pushed.length) (hbound : i + 1 < 2 ^ 64)
    (hnot : i ∉ m.history.readers.start) : m.buffer.CouldBeOffered q i := by
  obtain ⟨m₁, hm₁, hsteps⟩ := h.steps_release q Predicate.isIndexSet_ff
  have hq := released_register hsteps hnew
  have hstart₁ : m₁.buffer.startIdx ≤ i := by
    by_contra hlt
    exact hnot (hsteps.drops (by rintro ⟨⟨_, ⟨⟩⟩, _⟩) i hstart (not_le.mp hlt) q _ hq)
  have hopen₁ : m₁.buffer.closed = false := by
    by_contra hclosed
    rcases hsteps.closes (by simpa using hclosed) with hbefore | hall
    · simp [hopen] at hbefore
    · exact hnot (hall i (by omega) q _ hq)
  have hpushed₁ : m₁.history.pushed = m.history.pushed := by
    rw [hsteps.history]
    rfl
  obtain ⟨later, m', elements, hlater, hrun, helements, hmem⟩ :=
    hsteps.sound.exists_offer hq hopen₁ hstart₁ (hpushed₁ ▸ hle) hbound hnot
  refine ⟨later, m'.buffer, elements, hlater, ?_, helements, hmem⟩
  simp [run_eq, List.foldlM_cons, hm₁, hrun]

/-- **Where a new producer starts.** -/
theorem Sound.firstIndex_iff (h : m.Sound)
    (hjoined : ∀ {a b : IntervalSet Index}, a.Canonical → b.Canonical →
      (IntervalOps.intersection a b).Canonical) (hnew : m.history.readers.released q = none) :
    (∃ first, m.buffer.firstIndexForANewProducer = some first ∧
      IsLeast {i | m.buffer.CouldBeOffered q i} first) ↔
    m.buffer.closed = false ∧ ∃ i, m.buffer.startIdx ≤ i ∧ i ≤ m.history.pushed.length ∧
      i + 1 < 2 ^ 64 ∧ i ∉ m.history.readers.start := by
  obtain ⟨first, hfirst, hstart, hready, hcovered, hnext⟩ :=
    firstIndexForANewProducer_spec h.wellFormed
  rw [h.readers] at hcovered hnext
  rw [h.readySize] at hready hnext
  constructor
  · rintro ⟨first', hfirst', hoffered, -⟩
    obtain rfl : first = first' := mem_unique hfirst hfirst'
    obtain ⟨hopen, -, hbound, hnot⟩ := h.of_couldBeOffered hnew hoffered
    exact ⟨hopen, first, hstart, hready, hbound, hnot⟩
  · rintro ⟨hopen, i, hi, hle, hbound, hnot⟩
    have hfirst_le : first ≤ i := not_lt.mp fun hlt => hnot (hcovered i hi hlt)
    -- the first index not covered is in the window, or it is the next to arrive
    have hmissing : first ∉ m.history.readers.start := by
      rcases hready.lt_or_eq with hlt | heq
      · exact hnext hjoined hlt
      · obtain rfl : first = i := by omega
        exact hnot
    refine ⟨first, hfirst, h.couldBeOffered hnew hopen hstart hready (by omega) hmissing, ?_⟩
    intro j hj
    obtain ⟨-, hj, -, hnotj⟩ := h.of_couldBeOffered hnew hj
    exact not_lt.mp fun hlt => hnotj (hcovered j hj hlt)

end Steps

end Moment

/-! ## Whole runs -/

open Moment

/-- **What a stream source offers along a run.**  Every operation goes through unless a push
overflows the counters.  At every moment each reader is offered exactly what it is owed and only
released indices are dropped, if and only if every element pushed onto a closed buffer is already
released by whoever is registered then.  And the first index of a new producer is the least one it
could be offered if and only if the buffer is open and one of its indices, or the next one, is not
carried as released. -/
theorem stream_offers_iff [ScalarOps]
    (hjoined : ∀ {a b : IntervalSet Index}, a.Canonical → b.Canonical →
      (IntervalOps.intersection a b).Canonical)
    {ops : List StreamOp} (hops : ∀ op ∈ ops, op.Indexed) :
    (∀ pre op post m, ops = pre ++ op :: post → after pre = some m → ¬Overflows m op →
      ∃ m', m.step op = some m') ∧
    ((∀ pre op post m m', ops = pre ++ op :: post → after pre = some m → m.step op = some m' →
        m'.OffersUnreleased ∧ m'.OffersArrivals ∧ DropsReleased m m') ↔
      ∀ pre op post m, ops = pre ++ op :: post → after pre = some m → ¬Overflows m op →
        ClosedPush m op → ∀ p A, m.history.readers.released p = some A →
          m.history.pushed.length ∈ A) ∧
    ∀ pre post m, ops = pre ++ post → after pre = some m →
      ∀ q, m.history.readers.released q = none →
        ((∃ first, m.buffer.firstIndexForANewProducer = some first ∧
            IsLeast {i | m.buffer.CouldBeOffered q i} first) ↔
          m.buffer.closed = false ∧ ∃ i, m.buffer.startIdx ≤ i ∧ i ≤ m.history.pushed.length ∧
            i + 1 < 2 ^ 64 ∧ i ∉ m.history.readers.start) := by
  have hsound : ∀ {pre post m}, ops = pre ++ post → after pre = some m → m.Sound := by
    intro pre post m heq hm
    exact sound_after (fun op hop => hops op (by simp [heq, hop])) hm
  have hindexed : ∀ {pre op post}, ops = pre ++ op :: post → op.Indexed := by
    intro pre op post heq
    exact hops op (by simp [heq])
  refine ⟨fun pre op post m heq hm hbound => ?_, ⟨fun hall pre op post m heq hm hbound hpush => ?_,
    fun hall pre op post m m' heq hm hstep => ?_⟩, fun pre post m heq hm q hnew =>
    (hsound heq hm).firstIndex_iff hjoined hnew⟩
  · obtain ⟨m', hm', -⟩ := (hsound heq hm).steps (hindexed heq) hbound
    exact ⟨m', hm'⟩
  · obtain ⟨m', hm', hsteps⟩ := (hsound heq hm).steps (hindexed heq) hbound
    exact ((hsound heq hm).drops_iff hsteps).mp (hall pre op post m m' heq hm hm').2.2 hpush
  -- every step so far dropped only released indices, and so does this one
  have hdrops : ∀ {pre op post m m'}, ops = pre ++ op :: post → after pre = some m →
      m.step op = some m' → DropsReleased m m' := by
    intro pre op post m m' heq hm hstep
    have hsteps := (hsound heq hm).steps_of_step (hindexed heq) hstep
    refine ((hsound heq hm).drops_iff hsteps).mpr (hall pre op post m heq hm ?_)
    exact not_overflows_of_step hstep
  have hm' : after (pre ++ [op]) = some m' := by
    rw [after_append_singleton, hm]
    exact hstep
  have hrun : ops = (pre ++ [op]) ++ post := by simp [heq]
  have hkept : m'.Kept := by
    refine kept_after (fun op' hop => hops op' (hrun ▸ List.mem_append_left post hop)) ?_ hm'
    intro pre' op' post' m₀ m₀' heq' hm₀ hstep₀
    have hsplit : ops = pre' ++ op' :: (post' ++ post) := by simp [hrun, heq']
    exact hdrops hsplit hm₀ hstep₀
  have hoffers := (hsound hrun hm').offers_iff.mpr hkept
  exact ⟨hoffers, (hsound hrun hm').offersArrivals hoffers, hdrops heq hm hstep⟩

/-- A reader registers, and what is pushed then is offered to it. -/
theorem stream_offers_iff_one_reader : (∀ op ∈ [StreamOp.release "a" .ff, .push "x"], op.Indexed) ∧
    ∃ m, after [.release "a" .ff, .push "x"] = some m ∧ m.OffersUnreleased ∧
      m.history.readers.released "a" = some ∅ ∧ m.history.pushed = ["x"] := by
  have hops : ∀ op ∈ [StreamOp.release "a" .ff, .push "x"], op.Indexed := by
    simp [StreamOp.Indexed, Predicate.isIndexSet_ff]
  obtain ⟨-, ⟨-, hright⟩, -⟩ :=
    stream_offers_iff (fun ha hb => IntervalList.intersection_canonical ha hb) hops
  obtain ⟨m₁, hm₁, hsteps₁⟩ := start_sound.steps_release "a" Predicate.isIndexSet_ff
  have hafter₁ : after [.release "a" .ff] = some m₁ := by simpa [after] using hm₁
  have hreleased₁ : m₁.history.readers.released "a" = some ∅ := released_register hsteps₁ rfl
  have hopen : ¬m₁.buffer.closed = true := fun hclosed => by
    rcases hsteps₁.closes hclosed with hstart | hall
    · cases hstart
    · exact hall 0 (by omega) "a" ∅ hreleased₁
  have hlt : m₁.buffer.readySize + 1 < 2 ^ 64 := by
    rw [hsteps₁.sound.readySize, hsteps₁.history]
    simp [History.step, start, History.empty]
  obtain ⟨m₂, hm₂, hsteps₂⟩ := hsteps₁.sound.steps_push "x" hlt
  have hoffers : m₂.OffersUnreleased := by
    refine (hright ?_ [.release "a" .ff] (.push "x") [] m₁ m₂ rfl hafter₁ hm₂).1
    -- no push finds the buffer closed
    rintro (_ | ⟨_, _ | _⟩) op post m heq hm - ⟨⟨value, rfl⟩, hclosed⟩
    · simp at heq
    · simp only [List.cons_append, List.nil_append, List.cons.injEq] at heq
      obtain ⟨rfl, -⟩ := heq
      exact absurd (mem_unique hafter₁ hm ▸ hclosed) hopen
    · simp at heq
  refine ⟨hops, m₂, by simp [after, hm₁, hm₂], hoffers, ?_, ?_⟩
  · rw [hsteps₂.history]
    exact hreleased₁
  · rw [hsteps₂.history, hsteps₁.history]
    rfl

/-- The only reader releases everything, and the buffer closes. -/
lemma exists_closed_moment :
    ∃ m, after [.release "a" .tt] = some m ∧ m.Sound ∧ m.buffer.closed = true ∧
      m.history = History.empty.step 0 (.release "a" .tt) := by
  have hunion : Predicate.ff.union .tt = some .tt := by rw [Predicate.union_def]
  have hmeet : Predicate.tt.intersect .tt = some .tt := by rw [Predicate.intersect_def]
  have hrecord : ProducerReleases.default.record "a" .tt =
      some ⟨OrdMap.empty.insert "a" .tt, .ff⟩ := by
    have hof : ProducerReleases.default.of "a" = none := rfl
    simp only [ProducerReleases.record, hof, getD_none]
    exact bind_eq_some_iff.mpr ⟨.tt, hunion, rfl⟩
  have hagreed : ProducerReleases.agreed ⟨OrdMap.empty.insert "a" .tt, .ff⟩ = some .tt :=
    bind_eq_some_iff.mpr ⟨.tt, hmeet, rfl⟩
  have htrue : Predicate.tt.isTrue = true := by simp [Predicate.isTrue, Predicate.asBool]
  obtain ⟨buffer, hrelease, hclosed⟩ :
      ∃ buffer, UIntStreamBuffer.new.release "a" .tt = some buffer ∧ buffer.closed = true := by
    refine ⟨_, bind_eq_some_iff.mpr ⟨_, hrecord, bind_eq_some_iff.mpr
      ⟨_, hagreed, if_pos htrue⟩⟩, rfl⟩
  have hstep : start.step (.release "a" .tt) = some ⟨buffer, _⟩ := step_eq_some hrelease
  have hafter : after [.release "a" .tt] = start.step (.release "a" .tt) := by simp [after]
  refine ⟨_, hafter.trans hstep, sound_after ?_ (hafter.trans hstep), hclosed, rfl⟩
  simp [StreamOp.Indexed, Predicate.isIndexSet_tt]

/-- **A closed buffer withholds what is pushed later.**  Once everything has been released, a reader
that registers with nothing released is never offered the next element, and the first index of a new
producer is one that is never offered. -/
theorem closed_buffer_withholds :
    (∃ m, after [.release "a" .tt, .release "b" .ff, .push "x"] = some m ∧
      m.history.readers.released "b" = some ∅ ∧ m.history.registeredAt "b" = 0 ∧
      m.history.pushed = ["x"] ∧ m.buffer.getElements "b" = some []) ∧
    ∃ m, after [.release "a" .tt] = some m ∧ m.buffer.firstIndexForANewProducer = some 0 ∧
      ∀ i, ¬m.buffer.CouldBeOffered "b" i := by
  obtain ⟨m, hm, hsound, hclosed, hhistory⟩ := exists_closed_moment
  have hnew : m.history.readers.released "b" = none := by
    simp [hhistory, History.step, History.empty, Readers.record, Readers.none]
  have hready : m.buffer.readySize = 0 := by
    rw [hsound.readySize, hhistory]
    rfl
  constructor
  · obtain ⟨m₁, hm₁, hsteps₁⟩ := hsound.steps_release "b" Predicate.isIndexSet_ff
    have hlt : m₁.buffer.readySize + 1 < 2 ^ 64 := by
      rw [hsteps₁.sound.readySize, hsteps₁.history, hhistory]
      simp [History.step, History.empty]
    obtain ⟨m₂, hm₂, hsteps₂⟩ := hsteps₁.sound.steps_push "x" hlt
    have hafter : after [.release "a" .tt, .release "b" .ff, .push "x"] = some m₂ := by
      have : after ([.release "a" .tt] ++ [.release "b" .ff] ++ [.push "x"]) = some m₂ := by
        rw [after_append_singleton, after_append_singleton, hm]
        simp [hm₁, hm₂]
      exact this
    have hreleased : m₂.history.readers.released "b" = some ∅ := by
      rw [hsteps₂.history, hsteps₁.history, hhistory]
      simp [History.step, History.empty, Readers.record, Readers.none]
    obtain ⟨elements, helements, -, hmem⟩ := hsteps₂.sound.getElements hreleased
    have hempty : m₂.buffer.startIdx = m₂.history.pushed.length :=
      (m₂.buffer.startIdx_of_closed (hsteps₂.closed (hsteps₁.closed hclosed))).trans
        hsteps₂.sound.readySize
    obtain rfl : elements = [] := List.eq_nil_iff_forall_not_mem.mpr fun i hi => by
      have := (hmem i).mp hi
      omega
    refine ⟨m₂, hafter, hreleased, ?_, ?_, helements⟩
    · rw [hsteps₂.history, hsteps₁.history, hhistory]
      simp [History.step, History.empty, Readers.record, Readers.none]
    · rw [hsteps₂.history, hsteps₁.history, hhistory]
      simp [History.step, History.empty]
  · obtain ⟨first, hfirst, -, hle, -⟩ := firstIndexForANewProducer_spec hsound.wellFormed
    obtain rfl : first = 0 := by omega
    refine ⟨m, hm, hfirst, fun i hi => ?_⟩
    have := (hsound.of_couldBeOffered hnew hi).1
    simp [hclosed] at this
end Cambra
