import Cambra.Lib.OrdMap
import Cambra.Source.Indices

/-!
# What the producers of a source have released

The model of `producer_releases.rs`: one record per registered producer, accumulated by union, and
what a producer that registers from now on starts with.  The hash map is kept as its entries in the
order of the producers' names; the folds over it run in that order.

`Readers` is what the bookkeeping is for: a set of released indices per reader and a starting set.
`ProducerReleases.readers` reads it off the records, and each operation on the records is the
operation of the same name on the readers (`record_spec`, `retire_readers`, `carry_spec`).
-/

namespace Cambra

/-! ## The readers of a source -/

/-- The readers of a source: what each one registered has released, and what the next one to
register starts with. -/
@[ext]
structure Readers where
  released : String → Option (Set ℕ)
  start : Set ℕ

variable {p : String}

namespace Readers

/-- Nobody has registered. -/
def none : Readers := ⟨fun _ => .none, ∅⟩

variable (self : Readers)

/-- `producer` is registered. -/
def Registered (producer : String) : Prop := (self.released producer).isSome

/-- `producer` releases `obsolete`, and is registered with the starting set if it was not. -/
def record (producer : String) (obsolete : Set ℕ) : Readers := { self with
    released := Function.update self.released producer
      (some ((self.released producer).getD self.start ∪ obsolete)) }

/-- `producer` is gone. -/
def retire (producer : String) : Readers :=
  { self with released := Function.update self.released producer .none }

/-- The indices released by every registered reader that passes `among`. -/
def meet (among : String → Prop) : Set ℕ := {i | ∀ p A, among p → self.released p = some A → i ∈ A}

/-- What every reader has released, and nothing while nobody reads. -/
def agreed : Set ℕ := {i | (∃ p, self.Registered p) ∧ i ∈ self.meet fun _ => True}

/-- Whoever registers from now on starts where the readers of `predecessor` stopped, or at the
agreement when none of them reads this source. -/
def carry (predecessor : List String) : Readers := { self with
    start := {i | ((∃ p ∈ predecessor, self.Registered p) → i ∈ self.meet (· ∈ predecessor)) ∧
      ((¬∃ p ∈ predecessor, self.Registered p) → i ∈ self.agreed)} }

lemma mem_of_mem_agreed {self : Readers} {i : ℕ} (h : i ∈ self.agreed) {A : Set ℕ}
    (hp : self.released p = some A) : i ∈ A :=
  h.2 p A trivial hp

end Readers

/-! ## The records -/

/-- What each producer of a source has released, and what one registering from now on is recorded
as having released. -/
structure ProducerReleases where
  perProducer : OrdMap String Predicate
  onRegistration : Predicate

namespace ProducerReleases

/-- No record, and nothing carried. -/
def default : ProducerReleases := ⟨.empty, .ff⟩

variable (self : ProducerReleases)

/-- What `producer` has released, if it is registered. -/
def of (producer : String) : Option Predicate := self.perProducer.get? producer

/-- Forget the record of `producer`. -/
def retire (producer : String) : ProducerReleases :=
  { self with perProducer := self.perProducer.retain (· ≠ producer) }

section Ops

variable [ScalarOps]

/-- Accumulate `obsolete` into the record of `producer`, which is made first if it is missing. -/
def record (producer : String) (obsolete : Predicate) : Option ProducerReleases := do
  let recorded := (self.of producer).getD self.onRegistration
  let recorded ← recorded.union obsolete
  return { self with perProducer := self.perProducer.insert producer recorded }

/-- The fold of `intersect` over some records, from the universal predicate. -/
def intersectAll (released : List Predicate) : Option Predicate :=
  released.foldlM Predicate.intersect .tt

/-- What every registered producer has released. -/
def agreed : Option Predicate :=
  if self.perProducer.isEmpty then some .ff
  else intersectAll (self.perProducer.entries.map (·.2))

/-- Where the producers of `predecessor` stopped, or the agreement when none is registered. -/
def stopOf (predecessor : List String) : Option Predicate :=
  let theirs := (self.perProducer.entries.filter (·.1 ∈ predecessor)).map (·.2)
  if theirs.isEmpty then self.agreed else intersectAll theirs

/-- Start the producers that register from now on where those of `predecessor` stopped. -/
def carryToNewProducers (predecessor : List String) : Option ProducerReleases := do
  return { self with onRegistration := ← self.stopOf predecessor }

end Ops

/-! ## Records refine readers -/

/-- Every record, and what is carried, is a set of indices. -/
structure WellFormed (releases : ProducerReleases) : Prop where
  onRegistration : releases.onRegistration.IsIndexSet
  record : ∀ {p r}, releases.of p = some r → r.IsIndexSet

/-- The readers the records describe. -/
def readers : Readers := ⟨fun p => (self.of p).map Predicate.indices, self.onRegistration.indices⟩

lemma default_wellFormed : default.WellFormed :=
  ⟨Predicate.isIndexSet_ff, fun h => by simp [of, default, OrdMap.get?, OrdMap.empty] at h⟩

@[simp] lemma readers_default : default.readers = .none := by
  ext <;> simp [readers, Readers.none, of, default, OrdMap.get?, OrdMap.empty]

variable {self : ProducerReleases}

lemma readers_released {A : Set ℕ} :
    self.readers.released p = some A ↔ ∃ r, self.of p = some r ∧ r.indices = A := by simp [readers]

lemma readers_registered : self.readers.Registered p ↔ ∃ r, self.of p = some r := by
  simp [readers, Readers.Registered, Option.isSome_iff_exists]

lemma mem_entries_iff {r : Predicate} : (p, r) ∈ self.perProducer.entries ↔ self.of p = some r := by
  rw [of, OrdMap.get?_eq_some_iff, OrdMap.mem_def]

lemma of_insert (m : OrdMap String Predicate) (start : Predicate) (p : String) (r : Predicate) :
    of ⟨m.insert p r, start⟩ = Function.update (of ⟨m, start⟩) p (some r) := by
  funext q
  refine Option.ext fun r' => ?_
  simp only [of, OrdMap.get?_eq_some_iff, OrdMap.mem_insert, Function.update_apply]
  by_cases hq : q = p
  · simp [hq, eq_comm]
  · simp [hq, OrdMap.get?_eq_some_iff]

lemma of_retire (p : String) : (self.retire p).of = Function.update self.of p none := by
  funext q
  refine Option.ext fun r => ?_
  simp only [of, retire, OrdMap.get?_eq_some_iff, OrdMap.mem_retain, Function.update_apply]
  by_cases hq : q = p
  · simp [hq]
  · simp [hq, OrdMap.get?_eq_some_iff]

/-- `retire` keeps the records index sets and forgets one reader. -/
lemma WellFormed.retire (h : self.WellFormed) (p : String) : (self.retire p).WellFormed := by
  refine ⟨h.onRegistration, fun {q r} hq => ?_⟩
  rw [of_retire, Function.update_apply] at hq
  split_ifs at hq
  exact h.record hq

lemma retire_readers (p : String) : (self.retire p).readers = self.readers.retire p := by
  refine Readers.ext (funext fun q => ?_) rfl
  simp only [readers, Readers.retire, of_retire, Function.update_apply]
  split_ifs <;> rfl

section Specs

variable [ScalarOps]

/-- **`record` releases for one reader.** -/
lemma record_spec (h : self.WellFormed) (p : String) {g : Predicate} (hg : g.IsIndexSet) :
    ∃ self', self.record p g = some self' ∧ self'.WellFormed ∧
      self'.readers = self.readers.record p g.indices := by
  have hbase : ((self.of p).getD self.onRegistration).IsIndexSet := by
    cases hp : self.of p with
    | none => exact h.onRegistration
    | some r => exact h.record hp
  obtain ⟨r, hr, hset, hindices⟩ := hbase.union hg
  refine ⟨⟨self.perProducer.insert p r, self.onRegistration⟩, ?_, ⟨h.onRegistration, ?_⟩, ?_⟩
  · simp [record, hr]
  · intro q r' hq
    rw [of_insert, Function.update_apply] at hq
    split_ifs at hq
    · cases hq
      exact hset
    · exact h.record hq
  · refine Readers.ext (funext fun q => ?_) rfl
    simp only [readers, Readers.record, of_insert, Function.update_apply]
    split_ifs
    · rw [Option.map_some, hindices]
      cases self.of p <;> rfl
    · rfl

lemma intersectAll_spec {released : List Predicate} (h : ∀ r ∈ released, r.IsIndexSet) :
    ∃ r, intersectAll released = some r ∧ r.IsIndexSet ∧
      ∀ i, i ∈ r.indices ↔ i < 2 ^ 64 ∧ ∀ r' ∈ released, i ∈ r'.indices := by
  suffices hfold : ∀ (start : Predicate), start.IsIndexSet → ∃ r,
      released.foldlM Predicate.intersect start = some r ∧ r.IsIndexSet ∧
        ∀ i, i ∈ r.indices ↔ i ∈ start.indices ∧ ∀ r' ∈ released, i ∈ r'.indices by
    simpa only [intersectAll, Predicate.mem_indices_tt] using hfold .tt Predicate.isIndexSet_tt
  induction released with
  | nil => exact fun start hstart => ⟨start, rfl, hstart, by simp⟩
  | cons r rest ih =>
    intro start hstart
    obtain ⟨next, hnext, hset, hindices⟩ := hstart.intersect (h r (by simp))
    obtain ⟨final, hfinal, hset', hmem⟩ := ih (fun r' hr' => h r' (by simp [hr'])) next hset
    refine ⟨final, by simp [List.foldlM_cons, hnext, hfinal], hset', fun i => ?_⟩
    rw [hmem, hindices, List.forall_mem_cons, Set.mem_inter_iff, and_assoc]

/-- Intersecting the records of some producers, at least one, intersects what those readers have
released. -/
lemma intersectAll_filter_spec (h : self.WellFormed) (among : String → Prop) [DecidablePred among]
    {p₀ : String} (hp₀ : among p₀) (hreg : self.readers.Registered p₀) :
    ∃ r, intersectAll ((self.perProducer.entries.filter (among ·.1)).map (·.2)) = some r ∧
      r.IsIndexSet ∧ r.indices = self.readers.meet among := by
  have hmem : ∀ r, r ∈ (self.perProducer.entries.filter (among ·.1)).map (·.2) ↔
      ∃ p, among p ∧ self.of p = some r := by
    intro r
    simp only [List.mem_map, List.mem_filter, decide_eq_true_eq, Prod.exists, exists_eq_right,
      mem_entries_iff]
    exact exists_congr fun p => and_comm
  obtain ⟨r, hr, hset, hindices⟩ := intersectAll_spec (fun r hr => by
    obtain ⟨p, _, hp⟩ := (hmem r).mp hr
    exact h.record hp)
  refine ⟨r, hr, hset, Set.ext fun i => ?_⟩
  rw [hindices]
  constructor
  · rintro ⟨_, hall⟩ p A hp hA
    obtain ⟨r', hr', rfl⟩ := readers_released.mp hA
    exact hall r' ((hmem r').mpr ⟨p, hp, hr'⟩)
  · intro hall
    have hone : ∀ r', r' ∈ (self.perProducer.entries.filter (among ·.1)).map (·.2) →
        i ∈ r'.indices := by
      intro r' hr'
      obtain ⟨p, hp, hof⟩ := (hmem r').mp hr'
      exact hall p _ hp (readers_released.mpr ⟨r', hof, rfl⟩)
    obtain ⟨r₀, hr₀⟩ := readers_registered.mp hreg
    exact ⟨(hone r₀ ((hmem r₀).mpr ⟨p₀, hp₀, hr₀⟩)).1, hone⟩

/-- **`agreed` is what every reader has released.** -/
lemma agreed_spec (h : self.WellFormed) :
    ∃ r, self.agreed = some r ∧ r.IsIndexSet ∧ r.indices = self.readers.agreed := by
  by_cases hempty : self.perProducer.isEmpty = true
  · refine ⟨.ff, by simp [agreed, hempty], Predicate.isIndexSet_ff, ?_⟩
    rw [Predicate.indices_ff, eq_comm, Set.eq_empty_iff_forall_notMem]
    rintro i ⟨⟨p, hp⟩, _⟩
    obtain ⟨r, hr⟩ := readers_registered.mp hp
    exact (OrdMap.isEmpty_iff.mp hempty) (p, r) (mem_entries_iff.mpr hr)
  · obtain ⟨⟨p₀, r₀⟩, hmem⟩ : ∃ e, e ∈ self.perProducer := by
      simpa [OrdMap.isEmpty_iff] using hempty
    have hreg : self.readers.Registered p₀ := readers_registered.mpr ⟨r₀, mem_entries_iff.mp hmem⟩
    obtain ⟨r, hr, hset, hindices⟩ := intersectAll_filter_spec h (fun _ => True) trivial hreg
    refine ⟨r, by simpa [agreed, hempty] using hr, hset, ?_⟩
    rw [hindices]
    exact Set.ext fun i => ⟨fun hi => ⟨⟨p₀, hreg⟩, hi⟩, fun hi => hi.2⟩

lemma stopOf_spec (h : self.WellFormed) (predecessor : List String) :
    ∃ r, self.stopOf predecessor = some r ∧ r.IsIndexSet ∧
      r.indices = (self.readers.carry predecessor).start := by
  have htheirs : (self.perProducer.entries.filter (·.1 ∈ predecessor)).map (·.2) = [] ↔
      ¬∃ p ∈ predecessor, self.readers.Registered p := by
    simp only [List.map_eq_nil_iff, List.filter_eq_nil_iff, Prod.forall, mem_entries_iff,
      decide_eq_true_eq, readers_registered, not_exists, not_and]
    exact ⟨fun hall p hp r hr => hall p r hr hp, fun hall p r hr hp => hall p hp r hr⟩
  by_cases hex : ∃ p ∈ predecessor, self.readers.Registered p
  · obtain ⟨p₀, hp₀, hreg⟩ := id hex
    obtain ⟨r, hr, hset, hindices⟩ := intersectAll_filter_spec h (· ∈ predecessor) hp₀ hreg
    have htaken : ¬((self.perProducer.entries.filter (·.1 ∈ predecessor)).map
        (·.2)).isEmpty = true := by
      rw [List.isEmpty_iff, htheirs, not_not]
      exact hex
    refine ⟨r, (if_neg htaken).trans hr, hset, ?_⟩
    rw [hindices]
    exact Set.ext fun i => ⟨fun hi => ⟨fun _ => hi, fun hnot => absurd hex hnot⟩,
      fun hi => hi.1 hex⟩
  · obtain ⟨r, hr, hset, hindices⟩ := agreed_spec h
    have htaken : ((self.perProducer.entries.filter (·.1 ∈ predecessor)).map
        (·.2)).isEmpty = true := by
      rw [List.isEmpty_iff, htheirs]
      exact hex
    refine ⟨r, (if_pos htaken).trans hr, hset, ?_⟩
    rw [hindices]
    exact Set.ext fun i => ⟨fun hi => ⟨fun h => absurd h hex, fun _ => hi⟩, fun hi => hi.2 hex⟩

/-- **`carry_to_new_producers` moves the start of the next readers.** -/
lemma carry_spec (h : self.WellFormed) (predecessor : List String) :
    ∃ self', self.carryToNewProducers predecessor = some self' ∧ self'.WellFormed ∧
      self'.readers = self.readers.carry predecessor := by
  obtain ⟨r, hr, hset, hindices⟩ := stopOf_spec h predecessor
  exact ⟨{ self with onRegistration := r }, by simp [carryToNewProducers, hr], ⟨hset, h.record⟩,
    Readers.ext rfl hindices⟩

end Specs

end ProducerReleases

end Cambra
