import Cambra.Store.Transact
import Cambra.Tiling.Position

/-!
# As-of reads

`AsOf` answers each position of a trigger stream with the values some keys of a store have at the
first pull that sees the position while all of them have one: the row is latched then and emitted on
every later pull until the position is released.  What the consumer has released is kept as one
watermark, the furthest position any release reaches (`Predicate.maxReleasedPosition`); rows at or
below it are dropped, and a position at or below it is never latched.

A run is a sequence of pulls and releases with a trigger that keeps its word (`AsOfRun`): a position
it calls complete while it does not hold it does not come later.  The rows a pull emits are those of
the positions seen so far that lie above the watermark (`AsOf.mem_latched_iff`).  They are those of
the positions not released in exactly the runs in which the watermark tells the released positions
from the others (`WatermarkExact`, `asOf_answers_iff`).  A release of a position alone moves the
watermark past the unreleased ones before it (`release_drops_earlier_row`).

The marks of deleted rows in a trigger's tile are not read: a position of its key column has
arrived. -/

namespace Cambra

open List

variable {κ ν P : Type*} [LinearOrder P]

/-! ## The operator -/

/-- What one pull reads of the two inputs. -/
structure AsOfPull (κ ν P : Type*) where
  /-- The store at its decided frontier. -/
  view : StoreView κ ν
  storeTerminal : Bool
  /-- The positions the trigger holds. -/
  keys : List P
  /-- Whether the trigger calls a position complete. -/
  complete : P → Bool

variable (fields : List κ) (pull : AsOfPull κ ν P)

/-- The keys' values, all at the store's one frontier; nothing where some key has no value. -/
def AsOfPull.snapshot : Option (List ν) := fields.mapM pull.view.current

/-- The producer's state. -/
structure AsOf (ν P : Type*) where
  /-- The rows, each frozen when it was latched. -/
  latched : List (P × List ν)
  /-- The positions latched. -/
  seen : List P
  cursor : ReleaseCursor P

/-- What a pull answers. -/
structure AsOfTile (ν P : Type*) where
  rows : List (P × List ν)
  complete : P → Bool

namespace AsOf

/-- A producer as it is subscribed. -/
def fresh : AsOf ν P where
  latched := []
  seen := []
  cursor := .nothing

/-- Latch a position, once, unless it is at or below the watermark. -/
def latch (snap : List ν) (s : AsOf ν P) (b : P) : AsOf ν P :=
  if s.cursor.isReleased b then s
  else if b ∈ s.seen then s
  else { s with latched := s.latched ++ [(b, snap)], seen := b :: s.seen }

/-- Latch the positions the trigger holds, where there is a snapshot. -/
def latchAll (s : AsOf ν P) : AsOf ν P :=
  match pull.snapshot fields with
  | some snap => pull.keys.foldl (latch snap) s
  | none => s

/-- Whether the trigger holds a position above the watermark that is not latched. -/
def hasUnlatchedPosition (s : AsOf ν P) : Bool :=
  pull.keys.any fun b => !s.cursor.isReleased b && !decide (b ∈ s.seen)

/-- The tile of the rows latched.  The trigger's completeness is passed on once the store is
terminal and nothing is owed. -/
def emitLatched (s : AsOf ν P) : AsOfTile ν P where
  rows := s.latched
  complete b := pull.storeTerminal && !s.hasUnlatchedPosition pull && pull.complete b

/-- A release: move the watermark, and drop the rows it covers. -/
def release (r : PositionRelease P) (s : AsOf ν P) : AsOf ν P where
  cursor := s.cursor.advance r.extent
  latched := s.latched.filter fun row => !r.extent.isReleased row.1
  seen := s.seen.filter fun b => !r.extent.isReleased b

end AsOf

/-! ## Runs -/

/-- What happens to the producer. -/
inductive AsOfEvent (κ ν P : Type*) where
  | pull (p : AsOfPull κ ν P)
  | release (r : PositionRelease P)

/-- A sequence of pulls and releases, over a trigger that does not deliver a position after it has
called it complete without holding it. -/
structure AsOfRun (κ ν P : Type*) where
  events : List (AsOfEvent κ ν P)
  honest : ∀ done p rest, events = done ++ .pull p :: rest → ∀ b, p.complete b = true →
    b ∉ p.keys → ∀ q, .pull q ∈ rest → b ∉ q.keys

namespace AsOf

/-- One event. -/
def step (s : AsOf ν P) : AsOfEvent κ ν P → AsOf ν P
  | .pull p => s.latchAll fields p
  | .release r => s.release r

/-- The state after some events. -/
def after (events : List (AsOfEvent κ ν P)) : AsOf ν P := events.foldl (step fields) fresh

/-- What the pull `p` answers after the events `done`. -/
def answer (done : List (AsOfEvent κ ν P)) (p : AsOfPull κ ν P) : AsOfTile ν P :=
  (after fields (done ++ [.pull p])).emitLatched p

end AsOf

/-! ## What it is to answer -/

/-- The snapshot at the first pull that saw `b` while every key had a value. -/
def firstSnapshot (events : List (AsOfEvent κ ν P)) (b : P) : Option (List ν) :=
  events.findSome? fun
    | .pull p => if b ∈ p.keys then p.snapshot fields else none
    | .release _ => none

/-- Whether some release named `b`. -/
def releasedBy (events : List (AsOfEvent κ ν P)) (b : P) : Bool := events.any fun
    | .pull _ => false
    | .release r => r.contains b

/-- The furthest any release reaches. -/
def watermark (events : List (AsOfEvent κ ν P)) : ReleaseCursor P :=
  events.foldl (fun cursor e => match e with
    | .pull _ => cursor
    | .release r => cursor.advance r.extent) .nothing

/-- **Every trigger position is answered once, with one snapshot.** -/
structure AsOfAnswers (fields : List κ) (events : List (AsOfEvent κ ν P)) : Prop where
  /-- A pull emits the rows of the positions that have arrived and are not released, each with the
  keys' values at the first pull that saw it with all of them decided. -/
  rows : ∀ done p, done ++ [.pull p] <+: events → ∀ b snap,
    (b, snap) ∈ (AsOf.answer fields done p).rows ↔
      firstSnapshot fields (done ++ [.pull p]) b = some snap ∧ releasedBy done b = false
  once : ∀ done p, done ++ [.pull p] <+: events →
    ((AsOf.answer fields done p).rows.map Prod.fst).Nodup
  /-- A position the consumer still wants is complete only when its row has been emitted, or the
  trigger does not deliver it any more. -/
  complete : ∀ done p, done ++ [.pull p] <+: events → ∀ b,
    (AsOf.answer fields done p).complete b = true → releasedBy done b = false →
      (∃ done' p' snap, done' ++ [.pull p'] <+: done ++ [.pull p] ∧
        (b, snap) ∈ (AsOf.answer fields done' p').rows) ∨
      ∀ before q rest, events = before ++ .pull q :: rest → done.length ≤ before.length → b ∉ q.keys

/-- At every pull the watermark tells the released positions from the others: among those that have
been seen with the keys decided, and, where the trigger's completeness is passed on, among those it
holds and calls complete. -/
structure WatermarkExact (fields : List κ) (events : List (AsOfEvent κ ν P)) : Prop where
  seen : ∀ done p, done ++ [.pull p] <+: events → ∀ b,
    (firstSnapshot fields (done ++ [.pull p]) b).isSome →
      (watermark done).isReleased b = releasedBy done b
  complete : ∀ done p, done ++ [.pull p] <+: events → p.storeTerminal = true →
    (∀ b ∈ p.keys, (watermark done).isReleased b = true ∨
      (firstSnapshot fields (done ++ [.pull p]) b).isSome) →
    ∀ b ∈ p.keys, p.complete b = true → (watermark done).isReleased b = true →
      releasedBy done b = true

/-! ## The rows of a run -/

lemma firstSnapshot_append (done : List (AsOfEvent κ ν P)) (e : AsOfEvent κ ν P) (b : P) :
    firstSnapshot fields (done ++ [e]) b =
      (firstSnapshot fields done b).or (firstSnapshot fields [e] b) := by
  rw [firstSnapshot, findSome?_append]
  rfl

variable {b : P} {before : List (AsOfEvent κ ν P)} (fields : List κ) (done : List (AsOfEvent κ ν P))
  (p : AsOfPull κ ν P)

lemma firstSnapshot_of_isPrefix {fields : List κ} {events : List (AsOfEvent κ ν P)} {snap : List ν}
    (hpre : before <+: events) (h : firstSnapshot fields before b = some snap) :
    firstSnapshot fields events b = some snap := by
  obtain ⟨rest, rfl⟩ := hpre
  rw [firstSnapshot, findSome?_append]
  exact Option.or_eq_some_iff.mpr (.inl h)

lemma watermark_pull : watermark (done ++ [.pull p]) = watermark done := by
  rw [watermark, foldl_append]
  rfl

lemma watermark_release (r : PositionRelease P) :
    watermark (done ++ [.release r]) = (watermark done).advance r.extent := by
  rw [watermark, foldl_append]
  rfl

omit [LinearOrder P] in
/-- A trigger that keeps its word does not deliver, from a pull on, what it calls complete there
without holding it. -/
lemma AsOfRun.never_delivered (run : AsOfRun κ ν P) {done : List (AsOfEvent κ ν P)}
    {p : AsOfPull κ ν P} (hpre : done ++ [.pull p] <+: run.events) (hcomplete : p.complete b = true)
    (hb : b ∉ p.keys) {rest : List (AsOfEvent κ ν P)} {q : AsOfPull κ ν P}
    (hevents : run.events = before ++ .pull q :: rest) (hlen : done.length ≤ before.length) :
    b ∉ q.keys := by
  obtain ⟨tail, htail⟩ := hpre
  have hsplit : run.events = done ++ .pull p :: tail := by simp [← htail]
  have heq : done ++ .pull p :: tail = before ++ .pull q :: rest := hsplit.symm.trans hevents
  rcases append_eq_append_iff.mp heq with ⟨mid, rfl, hmid⟩ | ⟨mid, rfl, hmid⟩
  · cases mid with
    | nil =>
      obtain rfl : p = q := by simpa using (List.cons.inj hmid).1
      exact hb
    | cons e mid =>
      obtain ⟨-, rfl⟩ := List.cons.inj hmid
      exact run.honest done p _ hsplit b hcomplete hb q (by simp)
  · obtain rfl : mid = [] := by
      rw [length_append] at hlen
      exact length_eq_zero_iff.mp (by omega)
    obtain rfl : q = p := by simpa using (List.cons.inj hmid).1
    exact hb

namespace AsOf

/-- What the state has latched, as a condition on positions. -/
structure Latches (s : AsOf ν P) (first : P → Option (List ν)) : Prop where
  mem_iff : ∀ b snap, (b, snap) ∈ s.latched ↔
    first b = some snap ∧ s.cursor.isReleased b = false
  nodup : (s.latched.map Prod.fst).Nodup
  seen_iff : ∀ b, b ∈ s.seen ↔ b ∈ s.latched.map Prod.fst

variable {first : P → Option (List ν)} {s : AsOf ν P}

lemma Latches.seen_iff_isSome (h : s.Latches first) (b : P) :
    b ∈ s.seen ↔ (first b).isSome ∧ s.cursor.isReleased b = false := by
  rw [h.seen_iff, mem_map]
  constructor
  · rintro ⟨⟨b, snap⟩, hmem, rfl⟩
    obtain ⟨hfirst, hcursor⟩ := (h.mem_iff _ _).mp hmem
    exact ⟨by simp [hfirst], hcursor⟩
  · rintro ⟨hsome, hcursor⟩
    obtain ⟨snap, hsnap⟩ := Option.isSome_iff_exists.mp hsome
    exact ⟨(b, snap), (h.mem_iff b snap).mpr ⟨hsnap, hcursor⟩, rfl⟩

lemma Latches.latch (h : s.Latches first) (snap : List ν) (b : P) :
    (s.latch snap b).Latches (fun c => (first c).or (if c = b then some snap else none)) ∧
      (s.latch snap b).cursor = s.cursor := by
  by_cases hcursor : s.cursor.isReleased b = true
  · rw [AsOf.latch, if_pos hcursor]
    refine ⟨⟨fun c snap' => ?_, h.nodup, h.seen_iff⟩, rfl⟩
    rw [h.mem_iff]
    by_cases hc : c = b
    · subst hc
      simp [hcursor]
    · simp [hc]
  · rw [AsOf.latch, if_neg hcursor]
    rw [Bool.not_eq_true] at hcursor
    by_cases hseen : b ∈ s.seen
    · rw [if_pos hseen]
      obtain ⟨hsome, _⟩ := (h.seen_iff_isSome b).mp hseen
      obtain ⟨old, hold⟩ := Option.isSome_iff_exists.mp hsome
      refine ⟨⟨fun c snap' => ?_, h.nodup, h.seen_iff⟩, rfl⟩
      rw [h.mem_iff]
      by_cases hc : c = b
      · subst hc
        simp [hold]
      · simp [hc]
    · rw [if_neg hseen]
      have hfirst : first b = none := by
        rcases hb : first b with _ | old
        · rfl
        · exact absurd ((h.seen_iff_isSome b).mpr ⟨by simp [hb], hcursor⟩) hseen
      refine ⟨⟨fun c snap' => ?_, ?_, fun c => ?_⟩, rfl⟩
      · rw [mem_append, h.mem_iff, mem_singleton, Prod.mk.injEq]
        by_cases hc : c = b
        · subst hc
          simp [hfirst, hcursor, eq_comm]
        · simp [hc]
      · rw [map_append, map_singleton]
        refine h.nodup.append (nodup_singleton b) ?_
        rw [disjoint_singleton]
        exact fun hb => hseen ((h.seen_iff b).mpr hb)
      · rw [List.mem_cons, h.seen_iff, map_append, mem_append, map_singleton,
          mem_singleton, or_comm]

lemma Latches.latchAll (h : s.Latches first) (fields : List κ) (pull : AsOfPull κ ν P) :
    (s.latchAll fields pull).Latches (fun b => (first b).or (firstSnapshot fields [.pull pull] b)) ∧
      (s.latchAll fields pull).cursor = s.cursor := by
  have hone : ∀ b, firstSnapshot fields [.pull pull] b =
      if b ∈ pull.keys then pull.snapshot fields else none := by
    intro b
    simp [firstSnapshot]
  simp only [hone]
  rw [AsOf.latchAll]
  rcases pull.snapshot fields with _ | snap
  · simpa using h
  generalize pull.keys = keys
  induction keys generalizing s first with
  | nil => simpa using h
  | cons c keys ih =>
    obtain ⟨hlatch, hcursor⟩ := h.latch snap c
    obtain ⟨hall, hcursor'⟩ := ih hlatch
    have hfirst : (fun b => (first b).or (if b ∈ c :: keys then some snap else none)) =
        fun b => ((first b).or (if b = c then some snap else none)).or
          (if b ∈ keys then some snap else none) := by
      funext b
      by_cases hb : b = c
      · simp [hb]
      · simp [hb]
    rw [hfirst]
    exact ⟨hall, hcursor'.trans hcursor⟩

lemma Latches.release (h : s.Latches first) (r : PositionRelease P) :
    (s.release r).Latches first := by
  refine ⟨fun b snap => ?_, ?_, fun b => ?_⟩
  · simp only [AsOf.release, mem_filter, h.mem_iff, ReleasedExtent.isReleased_advance,
      Bool.or_eq_false_iff, Bool.not_eq_true', and_assoc]
  · exact h.nodup.sublist (filter_sublist.map _)
  · simp only [AsOf.release, mem_filter, h.seen_iff, mem_map, Bool.not_eq_true']
    constructor
    · rintro ⟨⟨row, hrow, rfl⟩, hkeep⟩
      exact ⟨row, ⟨hrow, hkeep⟩, rfl⟩
    · rintro ⟨row, ⟨hrow, hkeep⟩, rfl⟩
      exact ⟨⟨row, hrow, rfl⟩, hkeep⟩

/-- **What a run has latched**: the positions seen with the keys decided that are above the
watermark, each with the snapshot of the first pull that saw it so. -/
lemma latches_after (events : List (AsOfEvent κ ν P)) :
    (after fields events).Latches (firstSnapshot fields events) ∧
      (after fields events).cursor = watermark events := by
  induction events using List.reverseRecOn with
  | nil =>
    exact ⟨⟨by simp [after, fresh, firstSnapshot], nodup_nil, by simp [after, fresh]⟩, rfl⟩
  | append_singleton done e ih =>
    obtain ⟨hlatches, hcursor⟩ := ih
    rw [after, foldl_append, foldl_cons, foldl_nil, ← after]
    simp only [funext (firstSnapshot_append fields done e)]
    cases e with
    | pull p =>
      obtain ⟨hall, hcursor'⟩ := hlatches.latchAll fields p
      rw [watermark_pull]
      exact ⟨hall, hcursor'.trans hcursor⟩
    | release r =>
      have hfirst : (fun b => (firstSnapshot fields done b).or
          (firstSnapshot fields [.release r] b)) = firstSnapshot fields done := by
        funext b
        exact Option.or_none
      rw [hfirst, watermark_release]
      exact ⟨hlatches.release r, congrArg (·.advance r.extent) hcursor⟩

lemma mem_rows_iff (b : P) (snap : List ν) : (b, snap) ∈ (answer fields done p).rows ↔
      firstSnapshot fields (done ++ [.pull p]) b = some snap ∧
        (watermark done).isReleased b = false := by
  obtain ⟨hlatches, hcursor⟩ := latches_after fields (done ++ [.pull p])
  rw [watermark_pull] at hcursor
  rw [← hcursor]
  exact hlatches.mem_iff b snap

/-- A position a pull calls complete is one the trigger calls complete; the store is terminal, and
the positions the trigger holds are all latched or at or below the watermark. -/
lemma complete_iff (b : P) : (answer fields done p).complete b = true ↔
      p.storeTerminal = true ∧ p.complete b = true ∧
        ∀ c ∈ p.keys, (watermark done).isReleased c = true ∨
          (firstSnapshot fields (done ++ [.pull p]) c).isSome := by
  obtain ⟨hlatches, hcursor⟩ := latches_after fields (done ++ [.pull p])
  rw [watermark_pull] at hcursor
  have howed : hasUnlatchedPosition p (after fields (done ++ [.pull p])) = false ↔
      ∀ c ∈ p.keys, (watermark done).isReleased c = true ∨
        (firstSnapshot fields (done ++ [.pull p]) c).isSome := by
    rw [hasUnlatchedPosition, any_eq_false]
    refine forall₂_congr fun c _ => ?_
    simp only [Bool.and_eq_true, Bool.not_eq_true', decide_eq_false_iff_not,
      hlatches.seen_iff_isSome, hcursor]
    cases (watermark done).isReleased c <;> simp [Option.isSome_iff_ne_none]
  rw [answer, emitLatched, ← howed]
  simp only [Bool.and_eq_true, Bool.not_eq_true', and_assoc, and_comm]

end AsOf

/-! ## Answering exactly -/

/-- **An as-of read answers every position once, with one snapshot**, in exactly the runs in which
the watermark tells the released positions from the others. -/
theorem asOf_answers_iff (fields : List κ) (run : AsOfRun κ ν P) :
    AsOfAnswers fields run.events ↔ WatermarkExact fields run.events := by
  constructor
  · intro h
    have hseen : ∀ done p, done ++ [.pull p] <+: run.events → ∀ b,
        (firstSnapshot fields (done ++ [.pull p]) b).isSome →
          (watermark done).isReleased b = releasedBy done b := by
      intro done p hpre b hsome
      obtain ⟨snap, hsnap⟩ := Option.isSome_iff_exists.mp hsome
      have hrow := h.rows done p hpre b snap
      rw [AsOf.mem_rows_iff] at hrow
      simp only [hsnap, true_and] at hrow
      cases hw : (watermark done).isReleased b <;> cases hr : releasedBy done b <;> simp_all
    refine ⟨hseen, fun done p hpre hterminal hall b hb hcomplete hreleased => ?_⟩
    by_contra hkept
    rw [Bool.not_eq_true] at hkept
    have hout := (AsOf.complete_iff fields done p b).mpr ⟨hterminal, hcomplete, hall⟩
    rcases h.complete done p hpre b hout hkept with ⟨done', p', snap, hpre', hrow⟩ | hnever
    · -- a row emitted before is due still, and the watermark has passed it
      obtain ⟨hsnap, _⟩ := (AsOf.mem_rows_iff fields done' p' b snap).mp hrow
      have hsame := hseen done p hpre b (by simp [firstSnapshot_of_isPrefix hpre' hsnap])
      simp [hreleased, hkept] at hsame
    · obtain ⟨rest, hrest⟩ := hpre
      exact hnever done p rest (by rw [← hrest]; simp) le_rfl hb
  · intro h
    refine ⟨fun done p hpre b snap => ?_, fun done p hpre => ?_, fun done p hpre b hout hkept => ?_⟩
    · rw [AsOf.mem_rows_iff]
      refine and_congr_right fun hsnap => ?_
      rw [h.seen done p hpre b (by simp [hsnap])]
    · exact (AsOf.latches_after fields (done ++ [.pull p])).1.nodup
    obtain ⟨hterminal, hcomplete, hall⟩ := (AsOf.complete_iff fields done p b).mp hout
    by_cases hb : b ∈ p.keys
    · left
      have hwater : (watermark done).isReleased b = false := by
        rw [← Bool.not_eq_true]
        intro hreleased
        have := h.complete done p hpre hterminal hall b hb hcomplete hreleased
        simp [hkept] at this
      have hsome : (firstSnapshot fields (done ++ [.pull p]) b).isSome := by
        simpa [hwater] using hall b hb
      obtain ⟨snap, hsnap⟩ := Option.isSome_iff_exists.mp hsome
      exact ⟨done, p, snap, prefix_refl _,
        (AsOf.mem_rows_iff fields done p b snap).mpr ⟨hsnap, hwater⟩⟩
    · right
      intro before q rest hevents hlen
      exact run.never_delivered hpre hcomplete hb hevents hlen

/-- One position released alone, as a consumer that finishes requests out of order does. -/
def releaseOne (b : P) : PositionRelease P where
  contains c := c == b
  extent := .through b

/-- Over a scalar domain it is the release that the predicate of the one position is read as. -/
lemma toRelease_eq_releaseOne {e : {e : Extent // e.WellFormed}} {b : Position e} {τ : ScalarType}
    {v : τ.Val} (hb : b.1 = .scalar τ v) {p : Predicate}
    (heq : p = .ofIntervals τ [⟨some ⟨false, v⟩, some ⟨false, v⟩⟩]) (hp : p.Over [e.1]) :
    p.toRelease hp = releaseOne b := by
  have hbool : p.asBool = none := by
    simp [heq, Predicate.asBool, Predicate.isWhole, Predicate.sample, point_ne_typeRange v]
  have hmax : p.maxReleasedPosition = some (some b.1) := by
    simp [heq, hb, Predicate.maxReleasedPosition, Predicate.latest]
  have hcontains : ∀ c : Position e, (p.contains c.1).getD false = (c == b) := by
    intro c
    obtain ⟨answer, hanswer, hmem⟩ := Predicate.contains_decides_open hp c.2.ofExtent.toOpen
    rw [hanswer, Option.getD_some, Bool.eq_iff_iff, hmem, beq_iff_eq]
    refine Iff.trans ?_ Subtype.ext_iff.symm
    rw [hb]
    subst heq
    cases hp with
    | ofIntervals hown _ =>
      obtain ⟨u, hu⟩ := c.2.ofExtent.toOpen.exists_scalar hown
      rw [hu, Value.point, Predicate.mem_ofIntervals]
      simp [IntervalSet.mem_cons, IntervalSet.not_mem_nil, Interval.Mem, Bound.Holds, Point.Lt,
        Point.Gt, and_comm (a := v ≤ u), ← le_antisymm_iff]
  unfold Predicate.toRelease releaseOne
  congr 1
  · exact funext hcontains
  · rw [hbool, if_neg (by simp)]
    split
    · next w hw =>
      have hwb : w = b.1 := Option.some.inj (Option.some.inj (hw.symm.trans hmax))
      exact congrArg ReleasedExtent.through (Subtype.ext hwb)
    · next h => exact absurd hmax (h _)

/-- A trigger that holds the positions 0 and 1, over a store with one key. -/
def twoRequests : AsOfPull ℕ ℕ ℕ where
  view := ⟨some 0, fun _ => some 7⟩
  storeTerminal := false
  keys := [0, 1]
  complete _ := false

/-- Two requests are answered, the second is released, and the next pull comes. -/
def secondReleased : AsOfRun ℕ ℕ ℕ where
  events := [.pull twoRequests, .release (releaseOne 1), .pull twoRequests]
  honest done p rest hevents b hcomplete := by
    have hp : p = twoRequests := by
      have hmem : AsOfEvent.pull p ∈ done ++ .pull p :: rest := by simp
      rw [← hevents] at hmem
      simpa using hmem
    rw [hp] at hcomplete
    cases hcomplete

/-- **A release drops an earlier row**: position 0 is neither released nor answered. -/
theorem release_drops_earlier_row :
    (AsOf.answer [0] [.pull twoRequests, .release (releaseOne 1)] twoRequests).rows = [] ∧
      ¬ AsOfAnswers [0] secondReleased.events := by
  have hnone : (AsOf.answer [0] [.pull twoRequests, .release (releaseOne 1)]
      twoRequests).rows = [] := by decide
  refine ⟨hnone, fun h => ?_⟩
  have hrow := h.rows [.pull twoRequests, .release (releaseOne 1)] twoRequests (prefix_refl _) 0 [7]
  rw [hnone] at hrow
  exact absurd (hrow.mpr ⟨by decide, by decide⟩) List.not_mem_nil

end Cambra
