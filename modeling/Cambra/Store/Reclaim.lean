import Cambra.Lib.OptionRel
import Cambra.Store.Engine

/-!
# Reclaiming the changelog is invisible

A run of the engine that reclaims released prefixes is compared with the same run that never
reclaims.  The two engines are kept in the relation `Reclaimed us`, where `us` lists the bounds
reclaimed through so far: they agree on seeds and frontier, the reclaimed domain holds what the
other has above every bound, each key was last written at the same entry, and each key folds to
the same entry at every position still in the reclaimed domain.

The two fold clauses carry each other.  A reclaim consults only its own engine, so the entry it
carries over must be the fold of every live position (`floor_reclaimLog`) and, where nothing was
written above the bound, the last write (`last?_reclaimLog`); a later decision reads the last
write through the new position, which is how an agreement about positions not run yet is kept.
-/

namespace Cambra

open List

namespace CommitEngine

variable {κ ν π : Type*} [LinearOrder π]

/-! ## One changelog -/

lemma last?_reclaimLog (log : OrdMap π ν) (live : Option π) (u : π) :
    (reclaimLog log live u).last? = log.last? := by
  cases hl : log.last? with
  | none =>
    rw [OrdMap.last?_eq_none_iff] at hl ⊢
    exact fun x hx => hl x (mem_of_mem_reclaimLog hx)
  | some x =>
    obtain ⟨hx, hmax⟩ := OrdMap.last?_eq_some_iff.1 hl
    refine OrdMap.last?_eq_some_iff.2 ⟨?_, fun y hy => hmax y (mem_of_mem_reclaimLog hy)⟩
    by_cases hux : u < x.1
    · exact mem_reclaimLog.2 (.inl ⟨hx, hux⟩)
    · -- Nothing lies above the bound, so the last write is the carry source.
      have hle : ∀ y ∈ log, y.1 ≤ u := fun y hy => (hmax y hy).trans (not_lt.1 hux)
      refine mem_reclaimLog.2 (.inr ?_)
      rw [carrySource, OrdMap.ceil_eq_none_iff.2 hle]
      simpa using (OrdMap.floor_eq_last? hle).trans hl

/-- A reclaim keeps the fold at every position above the bound that is at or after the earliest
live one. -/
lemma floor_reclaimLog (log : OrdMap π ν) {live u t : π} (hut : u < t) (hlive : live ≤ t) :
    (reclaimLog log (some live) u).floor t = log.floor t := by
  cases hf : log.floor t with
  | none =>
    rw [OrdMap.floor_eq_none_iff] at hf ⊢
    exact fun y hy => hf y (mem_of_mem_reclaimLog hy)
  | some x =>
    obtain ⟨⟨hx, hxt⟩, hmax⟩ := OrdMap.floor_eq_some_iff.1 hf
    refine OrdMap.floor_eq_some_iff.2
      ⟨⟨?_, hxt⟩, fun y hy hyt => hmax y (mem_of_mem_reclaimLog hy) hyt⟩
    by_cases hux : u < x.1
    · exact mem_reclaimLog.2 (.inl ⟨hx, hux⟩)
    -- `t` folds back past the bound, so the next write above the bound is above `t` too.
    have hfloor : log.floor u = some x := OrdMap.floor_eq_some_iff.2
      ⟨⟨hx, not_lt.1 hux⟩, fun y hy hyu => hmax y hy (hyu.trans hut.le)⟩
    refine mem_reclaimLog.2 (.inr ?_)
    cases hc : log.ceil u with
    | none => simpa [carrySource, hc] using hfloor
    | some z =>
      obtain ⟨⟨hz, huz⟩, -⟩ := OrdMap.ceil_eq_some_iff.1 hc
      have htz : t < z.1 := by
        by_contra hle
        exact hux (huz.trans_le (hmax z hz (not_lt.1 hle)))
      have hreach : live < z.1 := hlive.trans_lt htz
      simpa [carrySource, hc, hreach] using hfloor

/-! ## The relation between the two engines -/

/-- `e` is `f` reclaimed through each bound of `us`, as far as any read or commit can tell. -/
structure Reclaimed (us : List π) (e f : CommitEngine κ ν π) : Prop where
  wf : e.WF
  wf' : f.WF
  seed_eq : e.seed = f.seed
  decided_eq : e.decided = f.decided
  /-- What lies above every bound is left in the domain.  A position decided after a reclaim
  through a bound above it stays too. -/
  domain : ∀ p ∈ f.decidedPositions, (∀ u ∈ us, u < p) → p ∈ e.decidedPositions
  last_eq : ∀ key, (e.changes key).last? = (f.changes key).last?
  floor_eq : ∀ key, ∀ t ∈ e.decidedPositions, (e.changes key).floor t = (f.changes key).floor t

namespace Reclaimed

variable {us : List π} {e f : CommitEngine κ ν π}

lemma refl (he : e.WF) : Reclaimed [] e e where
  wf := he
  wf' := he
  seed_eq := rfl
  decided_eq := rfl
  domain := by simp
  last_eq _ := rfl
  floor_eq _ _ _ := rfl

variable (h : Reclaimed us e f)

include h

lemma gc (u : π) : Reclaimed (us ++ [u]) (e.gcReleasedPrefix u) f where
  __ := h
  wf := h.wf.gc u
  wf' := h.wf'
  domain p hp hus := mem_gc_decidedPositions.2
    ⟨h.domain p hp fun v hv => hus v (mem_append_left _ hv), hus u (by simp)⟩
  last_eq key := (last?_reclaimLog _ _ _).trans (h.last_eq key)
  floor_eq key t ht := by
    obtain ⟨htd, hut⟩ := mem_gc_decidedPositions.1 ht
    -- `t` itself is live, so an earliest live position exists and is at most `t`.
    obtain ⟨live, hfind⟩ : ∃ live, e.decidedPositions.find? (u < ·) = some live :=
      Option.isSome_iff_exists.1 (find?_isSome.2 ⟨t, htd, by simpa using hut⟩)
    have hle : live ≤ t :=
      (h.wf.ascending.eq_or_rel_of_find? hfind htd (by simpa using hut)).elim Eq.ge le_of_lt
    have hfl : ((e.gcReleasedPrefix u).changes key).floor t = (e.changes key).floor t := by
      simp only [gcReleasedPrefix, hfind]
      exact floor_reclaimLog _ hut hle
    exact hfl.trans (h.floor_eq key t htd)

/-- Reads agree at the frontier and at every position still in the domain. -/
lemma readAsOf_eq (key : κ) {t : π}
    (ht : f.decided = some t ∨ (t ∈ f.decidedPositions ∧ ∀ u ∈ us, u < t)) :
    e.readAsOf t key = f.readAsOf t key := by
  have hfloor : (e.changes key).floor t = (f.changes key).floor t := by
    rcases ht with hw | hlive
    · -- At the frontier both fold to their last write.
      have hle : ∀ {g : CommitEngine κ ν π}, g.WF → g.decided = some t →
          ∀ x ∈ g.changes key, x.1 ≤ t := by
        intro g hg hgt x hx
        obtain ⟨w, hw, hxw⟩ := hg.changes_le key x hx
        exact hxw.trans_eq (Option.mem_unique hw hgt)
      rw [OrdMap.floor_eq_last? (hle h.wf (h.decided_eq.trans hw)),
        OrdMap.floor_eq_last? (hle h.wf' hw), h.last_eq]
    · exact h.floor_eq key t (h.domain t hlive.1 hlive.2)
  have hdec : e.isDecided t = f.isDecided t := by simp [isDecided, h.decided_eq]
  simp [readAsOf, hdec, hfloor, h.seed_eq]

/-- A proposal is stale in both engines or in neither. -/
lemma isStale_eq (p : Proposal κ ν π) : e.isStale p = f.isStale p := by
  simp [isStale, latestWrite, h.last_eq]

variable [DecidableEq κ]

lemma decide {p : π} (ws : List (κ × ν)) (above : ∀ w, e.decided = some w → w < p) :
    Reclaimed us (e.decide p ws) (f.decide p ws) := by
  have above' : ∀ w, f.decided = some w → w < p := h.decided_eq ▸ above
  have hlt : ∀ {g : CommitEngine κ ν π}, g.WF → (∀ w, g.decided = some w → w < p) →
      ∀ key, ∀ x ∈ g.changes key, x.1 < p := by
    intro g hg habove key x hx
    obtain ⟨w, hw, hxw⟩ := hg.changes_le key x hx
    exact hxw.trans_lt (habove w hw)
  have hlast : ∀ key,
      ((e.decide p ws).changes key).last? = ((f.decide p ws).changes key).last? := by
    intro key
    rw [decide_changes, decide_changes]
    cases ws.lookup key with
    | none => exact h.last_eq key
    | some v =>
      exact (OrdMap.last?_insert fun x hx => (hlt h.wf above key x hx).le).trans
        (OrdMap.last?_insert fun x hx => (hlt h.wf' above' key x hx).le).symm
  refine ⟨h.wf.decide ws above, h.wf'.decide ws above', h.seed_eq, rfl, ?_, hlast, ?_⟩
  · intro q hq hqs
    rcases mem_append.1 hq with hq | hq
    · exact mem_append_left _ (h.domain q hq hqs)
    · exact mem_append_right _ hq
  · intro key t ht
    rcases mem_append.1 ht with ht | ht
    · -- A position decided before does not see what lands at `p`.
      have htp : t < p := by
        obtain ⟨w, hw, htw⟩ := h.wf.domain_le t ht
        exact htw.trans_lt (above w hw)
      rw [decide_changes, decide_changes]
      cases ws.lookup key with
      | none => exact h.floor_eq key t ht
      | some v =>
        rw [OrdMap.floor_insert_of_lt htp, OrdMap.floor_insert_of_lt htp]
        exact h.floor_eq key t ht
    · -- The new position folds to the last write.
      obtain rfl : t = p := mem_singleton.1 ht
      have hle : ∀ {g : CommitEngine κ ν π}, (g.decide t ws).WF →
          ∀ x ∈ (g.decide t ws).changes key, x.1 ≤ t := by
        intro g hg x hx
        obtain ⟨w, hw, hxw⟩ := hg.changes_le key x hx
        exact hxw.trans_eq (Option.some.inj hw).symm
      rw [OrdMap.floor_eq_last? (hle (h.wf.decide ws above)),
        OrdMap.floor_eq_last? (hle (h.wf'.decide ws above')), hlast key]

variable [CommitClock π]

/-- An operation other than a reclaim does the same to both: both panic, or both return the
same outcomes in related states. -/
lemma apply {op : EngineOp κ ν π} (hop : ∀ u, op ≠ .gc u) :
    Option.Rel (fun r s => Reclaimed us r.1 s.1 ∧ r.2 = s.2) (e.apply op) (f.apply op) := by
  cases op with
  | gc u => exact absurd rfl (hop u)
  | attempt p =>
    simp only [CommitEngine.apply, attempt, ← h.isStale_eq, ← h.decided_eq]
    split_ifs with hs
    · exact .some ⟨h, rfl⟩
    · cases hc : e.decided.bind CommitClock.next with
      | none => exact .none
      | some c =>
        obtain ⟨w, hw, hwc⟩ := Option.bind_eq_some_iff.1 hc
        refine .some ⟨h.decide p.writes fun w' hw' => ?_, rfl⟩
        exact (Option.mem_unique hw' hw).trans_lt (CommitClock.lt_next hwc)
  | step p ws =>
    simp only [CommitEngine.apply, step, ← h.decided_eq]
    split_ifs with habove
    · refine .some ⟨h.decide _ fun w hw => ?_, rfl⟩
      simpa [hw] using habove
    · exact .none

end Reclaimed

/-! ## Runs -/

/-- The bounds a run reclaims through, in order. -/
def throughs : List (EngineOp κ ν π) → List π
  | [] => []
  | .gc u :: ops => u :: throughs ops
  | _ :: ops => throughs ops

/-- The run with its reclaims left out. -/
def withoutGc : List (EngineOp κ ν π) → List (EngineOp κ ν π)
  | [] => []
  | .gc _ :: ops => withoutGc ops
  | op :: ops => op :: withoutGc ops

variable [DecidableEq κ] [CommitClock π]

/-- A run and the same run without its reclaims stay related. -/
lemma Reclaimed.run {us : List π} {e f : CommitEngine κ ν π} (h : Reclaimed us e f)
    (ops : List (EngineOp κ ν π)) :
    Option.Rel (fun r s => Reclaimed (us ++ throughs ops) r.1 s.1 ∧ r.2 = s.2)
      (e.run ops) (f.run (withoutGc ops)) := by
  induction ops generalizing us e f with
  | nil => exact .some ⟨by simpa [throughs] using h, rfl⟩
  | cons op ops ih =>
    by_cases hop : ∃ u, op = .gc u
    · obtain ⟨u, rfl⟩ := hop
      have hrun : e.run (.gc u :: ops) = (e.gcReleasedPrefix u).run ops := by
        simp [CommitEngine.run, CommitEngine.apply]
      rw [hrun, withoutGc, throughs, append_cons]
      exact ih (h.gc u)
    · have hne : ∀ u, op ≠ .gc u := fun u hu => hop ⟨u, hu⟩
      have hthroughs : throughs (op :: ops) = throughs ops := by cases op <;> simp_all [throughs]
      have hwithout : withoutGc (op :: ops) = op :: withoutGc ops := by
        cases op <;> simp_all [withoutGc]
      rw [hthroughs, hwithout]
      refine (h.apply hne).bind fun r s hrs => ?_
      rw [hrs.2]
      exact (ih hrs.1).map fun r' s' hrs' => ⟨hrs'.1, by rw [hrs'.2]⟩

/-- Two engines with the outcomes that led to them cannot be told apart: the same outcomes and
ticks, the same frontier, and the same value of every key at the frontier and at every position
the second decided above each bound of `us`. -/
def Indistinguishable (us : List π) (r s : CommitEngine κ ν π × List (CommitOutcome π)) : Prop :=
  r.2 = s.2 ∧ r.1.decided = s.1.decided ∧
    ∀ key t, s.1.decided = some t ∨ (t ∈ s.1.decidedPositions ∧ ∀ u ∈ us, u < t) →
      r.1.readAsOf t key = s.1.readAsOf t key

/-- **Changelog reclaim is invisible.**  A run of attempts, induction steps and reclaims from a
well-formed engine panics exactly when the same run without its reclaims does, and otherwise the
two end indistinguishable.  As `ops` is any run, this holds after every prefix of a run and after
every extension of it. -/
theorem gc_invisible (e : CommitEngine κ ν π) (he : e.WF) (ops : List (EngineOp κ ν π)) :
    Option.Rel (Indistinguishable (throughs ops)) (e.run ops) (e.run (withoutGc ops)) := by
  have hrel := (Reclaimed.refl he).run ops
  rw [nil_append] at hrel
  exact hrel.mono fun r s hrs => ⟨hrs.2, hrs.1.decided_eq, fun key t ht => hrs.1.readAsOf_eq key ht⟩

/-- A run that writes key `0` at ticks 1 and 3 and key `1` at tick 2, reclaims through 1, and
reads key `1` at a snapshot too old to commit. -/
theorem gc_invisible_two_keys :
    let e : CommitEngine ℕ ℕ ℕ := new fun _ => some 0
    let ops : List (EngineOp ℕ ℕ ℕ) :=
      [.attempt ⟨0, [(0, 0)], [(0, 7)]⟩, .attempt ⟨0, [(1, 0)], [(1, 8)]⟩,
        .attempt ⟨1, [(0, 7)], [(0, 9)]⟩, .gc 1, .attempt ⟨1, [(1, 0)], [(1, 5)]⟩]
    (e.run ops).map (·.2) = some [.committed 1, .committed 2, .committed 3, .stale] ∧
      throughs ops = [1] ∧
      Option.Rel (Indistinguishable (throughs ops)) (e.run ops) (e.run (withoutGc ops)) :=
  ⟨by decide, rfl, gc_invisible _ (WF.new _) _⟩

end CommitEngine

end Cambra
