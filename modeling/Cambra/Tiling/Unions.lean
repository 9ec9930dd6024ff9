import Cambra.Tiling.Shapes

/-!
# The operations on unions of arms

The predicate operations take an `Or` apart arm by arm and put the pieces together with
`flatten_or`.  Given what they answer on predicates that are not an `Or`, this module answers them
on all: `minus_spec_of_atoms`, `subsumes_spec_of_atoms`, and `Atoms.algebra` for the whole algebra.

The difference is the delicate one, since comparing with an `Or` subtracts it, and flattening a
difference compares.  `minus_spec_of_atoms` is therefore stated for any class of arms that flatten,
and used twice: once for arms that are no `Or` themselves, to know what comparisons answer, and
once for all.
-/

namespace Cambra

open List

namespace Predicate

lemma Over.ff_of_ne_nil (h : levels ≠ []) : Over levels .ff := by
  obtain ⟨e, es, rfl⟩ := exists_cons_of_ne_nil h
  exact .ff

lemma Over.tt_of_ne_nil (h : levels ≠ []) : Over levels .tt := by
  obtain ⟨e, es, rfl⟩ := exists_cons_of_ne_nil h
  exact .tt

variable {S : List KeyPoint → Prop} {o : Option Predicate} {f : Predicate → Option Predicate}

/-- What is returned over `levels` can be taken apart into arms. -/
lemma Returns.spreads (h : Returns levels (fun _ => True) o S) :
    Returns levels (Spreads (Arm levels)) o S :=
  h.mono fun _ hover _ => hover.spreads

lemma Returns.forget (h : Returns levels B o S) : Returns levels (fun _ => True) o S :=
  h.mono fun _ _ _ => trivial

variable [ScalarOps] {levels : List Extent} {arms : List Predicate} {B : Predicate → Prop}
  {p q : Predicate}

section Flatten

variable {A : Predicate → Prop} (hA : ArmClass levels A)

include hA

lemma flattenOr_mapM_spec {S : Predicate → List KeyPoint → Prop} (hne : arms ≠ [])
    (h : ∀ a ∈ arms, Returns levels (Spreads A) (f a) (S a)) :
    Returns levels (Spreads A) (do flattenOr (← arms.mapM f)) (fun x => ∃ a ∈ arms, S a x) := by
  obtain ⟨rs, hrs, hall⟩ := mapM_eq_some_of_forall h
  have hrne : rs ≠ [] := fun hnil => hne (by simpa [hnil] using hall.length_eq)
  rw [hrs]
  refine (flattenOr_spec hA hrne (fun r hr => ?_) fun r hr => ?_).congr fun x hx => ?_
  · obtain ⟨_, _, hover, _⟩ := exists_of_forall₂_mem_right hall hr
    exact hover
  · obtain ⟨_, _, _, hspread, _⟩ := exists_of_forall₂_mem_right hall hr
    exact hspread
  · exact exists_mem_iff_of_forall₂ hall fun _ _ hR => hR.2.2 x hx

end Flatten

/-! ## Difference -/

lemma minus_returns (hp : Over levels p) (hq : Over levels q) (hBp : B p) (hBff : B .ff)
    (h : q.isFalse = false → q.isTrue = false → p.isFalse = false →
      Returns levels B (minus p q) (fun x => Mem p x ∧ ¬Mem q x)) :
    Returns levels B (minus p q) (fun x => Mem p x ∧ ¬Mem q x) := by
  have hff := Over.ff_of_ne_nil hp.levels_ne_nil
  rcases hqf : q.isFalse with _ | _
  · rcases hqt : q.isTrue with _ | _
    · rcases hpf : p.isFalse with _ | _
      · exact h hqf hqt hpf
      · refine ⟨.ff, by rw [minus_def]; simp [hqf, hqt, hpf], hff, hBff, fun x _ => ?_⟩
        simp [not_mem_of_isFalse hp (isFalse_iff_asBool.mp hpf) x]
    · refine ⟨.ff, by rw [minus_def]; simp [hqf, hqt], hff, hBff, fun x hx => ?_⟩
      simp [mem_of_isTrue hq hqt hx]
  · refine ⟨p, by rw [minus_def]; simp [hqf], hp, hBp, fun x _ => ?_⟩
    simp [not_mem_of_isFalse hq (isFalse_iff_asBool.mp hqf) x]

/-- A difference that no answer is at hand for goes by shape, except from everything to an
interval set. -/
lemma minus_eq_minusByShape (hqf : q.isFalse = false) (hqt : q.isTrue = false)
    (hpf : p.isFalse = false)
    (h : ∀ τ s, q = .ofIntervals τ s → p.isTrue = false ∧ ∀ σ t, p ≠ .ofIntervals σ t) :
    minus p q = minusByShape p q := by
  rw [minus_def]
  simp only [hqf, hqt, hpf, Bool.false_eq_true, if_false]
  cases q with
  | ofIntervals τ s =>
    obtain ⟨htrue, hne⟩ := h τ s rfl
    cases p with
    | ofIntervals σ t => exact absurd rfl (hne σ t)
    | _ => simp [htrue]
  | _ => cases p <;> rfl

/-- The answers `intersect` gives before it looks at a shape are right. -/
lemma intersect_returns (hp : Over levels p) (hq : Over levels q)
    (h : ¬(p = .tt ∨ p = .ff) → ¬(q = .tt ∨ q = .ff) →
      Returns levels (fun _ => True) (intersect p q) (fun x => Mem p x ∧ Mem q x)) :
    Returns levels (fun _ => True) (intersect p q) (fun x => Mem p x ∧ Mem q x) := by
  by_cases hpc : p = .tt ∨ p = .ff
  · rw [intersect_def]
    rcases hpc with rfl | rfl
    · exact ⟨q, rfl, hq, trivial, by simp⟩
    · exact ⟨.ff, by cases q <;> rfl, hp, trivial, by simp⟩
  by_cases hqc : q = .tt ∨ q = .ff
  · rw [intersect_def]
    rcases hqc with rfl | rfl
    · exact ⟨p, by cases p <;> rfl, hp, trivial, by simp⟩
    · exact ⟨.ff, by cases p <;> rfl, hq, trivial, by simp⟩
  exact h hpc hqc

lemma union_returns (hp : Over levels p) (hq : Over levels q)
    (h : ¬(p = .tt ∨ p = .ff) → ¬(q = .tt ∨ q = .ff) →
      Returns levels (fun _ => True) (union p q) (fun x => Mem p x ∨ Mem q x)) :
    Returns levels (fun _ => True) (union p q) (fun x => Mem p x ∨ Mem q x) := by
  by_cases hpc : p = .tt ∨ p = .ff
  · rw [union_def]
    rcases hpc with rfl | rfl
    · exact ⟨.tt, rfl, hp, trivial, by simp⟩
    · exact ⟨q, by cases q <;> rfl, hq, trivial, by simp⟩
  by_cases hqc : q = .tt ∨ q = .ff
  · rw [union_def]
    rcases hqc with rfl | rfl
    · exact ⟨.tt, by cases p <;> rfl, hq, trivial, by simp⟩
    · exact ⟨p, by cases p <;> rfl, hp, trivial, by simp⟩
  exact h hpc hqc

lemma minusByShape_ofOr (hp : p.isOr = false) :
    minusByShape p (.ofOr arms) = arms.foldlM (fun res arm => minus res arm) p := by
  rw [minusByShape_def]
  cases p <;> first | rfl | simp [isOr] at hp

/-- Subtracting arms one after another subtracts their union. -/
lemma foldlM_minus_spec (hp : Over levels p) (hB : B p)
    (hminus : ∀ a ∈ arms, ∀ r, Over levels r → B r →
      Returns levels B (minus r a) (fun x => Mem r x ∧ ¬Mem a x)) :
    Returns levels B (arms.foldlM (fun res arm => minus res arm) p)
      (fun x => Mem p x ∧ ¬Mem (.ofOr arms) x) := by
  -- what is left has lost the arms subtracted so far
  let I : List Predicate → Predicate → Prop := fun done r =>
    Over levels r ∧ B r ∧ ∀ x, InLevels levels x → (Mem r x ↔ Mem p x ∧ ¬∃ a ∈ done, Mem a x)
  have hinit : I [] p := ⟨hp, hB, by simp⟩
  have hstep : ∀ done a rest r, arms = done ++ a :: rest → I done r →
      ∃ r', minus r a = some r' ∧ I (done ++ [a]) r' := by
    rintro done a rest r harms ⟨hro, hrB, hrmem⟩
    obtain ⟨r', hr', hro', hrB', hrmem'⟩ := hminus a (by simp [harms]) r hro hrB
    refine ⟨r', hr', hro', hrB', fun x hx => ?_⟩
    simp only [hrmem' x hx, hrmem x hx, mem_append, mem_singleton, or_and_right,
      exists_or, exists_eq_left, not_or, and_assoc]
  obtain ⟨r, hr, hro, hrB, hrmem⟩ := foldlM_eq_some_of_invariant I hinit hstep
  exact ⟨r, hr, hro, hrB, fun x hx => by simp only [hrmem x hx, mem_ofOr]⟩

section Minus

variable {A : Predicate → Prop} (hA : ArmClass levels A) (hff : A .ff)
  (hcompl : ∀ {τ s}, Over levels (.ofIntervals τ s) →
    Returns levels (Spreads A) (intervals τ (IntervalOps.complement s))
      (fun x => ¬Mem (.ofIntervals τ s) x))

include hA hff hcompl

/-- Subtracting from an `Or` subtracts from each arm. -/
lemma minus_spec_of_left (hq : Over levels q) (hbase : ∀ {p}, A p → p.isOr = false →
      Returns levels (Spreads A) (minus p q) (fun x => Mem p x ∧ ¬Mem q x)) (hp : Over levels p)
    (hpA : Spreads A p) : Returns levels (Spreads A) (minus p q) (fun x => Mem p x ∧ ¬Mem q x) := by
  induction p with
  | ofOr arms ih =>
    refine minus_returns hp hq hpA (hA.spreads hff) fun hqf hqt hpf => ?_
    have hshape : Returns levels (Spreads A) (minusByShape (.ofOr arms) q)
        (fun x => Mem (.ofOr arms) x ∧ ¬Mem q x) := by
      rw [minusByShape_def]
      cases hp with
      | ofOr hne hover _ =>
        refine (flattenOr_mapM_spec hA hne fun a ha => ih a ha (hover a ha) ?_).congr
          fun x _ => by simp only [mem_ofOr, ← and_assoc, exists_and_right]
        exact hA.spreads (hpA a (by simpa [spreadArms] using ha))
    by_cases hcase : ∃ τ s, q = .ofIntervals τ s ∧ (Predicate.ofOr arms).isTrue = true
    · obtain ⟨τ, s, rfl, htrue⟩ := hcase
      rw [minus_def]
      simp only [hqf, hqt, hpf, htrue, Bool.false_eq_true, if_false, if_true]
      exact (hcompl hq).congr fun x hx => by simp [mem_of_isTrue hp htrue hx]
    · rwa [minus_eq_minusByShape hqf hqt hpf fun τ s hqs => ⟨?_, by simp⟩]
      rw [← Bool.not_eq_true]
      exact fun htrue => hcase ⟨τ, s, hqs, htrue⟩
  | _ => exact hbase (hpA _ (by simp [spreadArms])) rfl

/-- **Difference**, given the difference of predicates that are no `Or`. -/
theorem minus_spec_of_atoms
    (hatom : ∀ {p q}, A p → p.isOr = false → Over levels q → q.isOr = false →
      Returns levels (Spreads A) (minus p q) (fun x => Mem p x ∧ ¬Mem q x)) (hp : Over levels p)
    (hpA : Spreads A p) (hq : Over levels q) :
    Returns levels (Spreads A) (minus p q) (fun x => Mem p x ∧ ¬Mem q x) := by
  induction q generalizing p with
  | ofOr arms ih =>
    refine minus_spec_of_left hA hff hcompl hq (fun {p} hpA hpor => ?_) hp hpA
    have hpo := hA.isOver hpA
    have hspread := hA.spreads hpA
    refine minus_returns hpo hq hspread (hA.spreads hff) fun hqf hqt hpf => ?_
    rw [minus_eq_minusByShape hqf hqt hpf (by simp)]
    rw [minusByShape_ofOr hpor]
    exact foldlM_minus_spec hpo hspread fun a ha r hro hrA => ih a ha hro hrA (hq.of_mem_arms ha)
  | _ => exact minus_spec_of_left hA hff hcompl hq (fun hpA hpor => hatom hpA hpor hq rfl) hp hpA

end Minus

/-! ## Containment -/

lemma subsumes_decides (hp : Over levels p) (hq : Over levels q)
    (h : q.isFalse = false → p.isTrue = false →
      Decides (subsumes p q) (∀ x, InLevels levels x → Mem q x → Mem p x)) :
    Decides (subsumes p q) (∀ x, InLevels levels x → Mem q x → Mem p x) := by
  rcases hqf : q.isFalse with _ | _
  · rcases hpt : p.isTrue with _ | _
    · exact h hqf hpt
    · refine .of_true (by rw [subsumes_def]; simp [hqf, hpt]) fun x hx _ => ?_
      exact mem_of_isTrue hp hpt hx
  · refine .of_true (by rw [subsumes_def]; simp [hqf]) fun x _ hmem => ?_
    exact absurd hmem (not_mem_of_isFalse hq (isFalse_iff_asBool.mp hqf) x)

/-- Containment by subtraction: nothing is left. -/
lemma decides_isFalse_minus
    (h : Returns levels (fun _ => True) (minus q p) (fun x => Mem q x ∧ ¬Mem p x)) :
    Decides (do return (← minus q p).isFalse) (∀ x, InLevels levels x → Mem q x → Mem p x) := by
  obtain ⟨r, hr, hover, _, hmem⟩ := h
  refine ⟨r.isFalse, by simp [hr], ?_⟩
  rw [isFalse_iff hover]
  refine forall₂_congr fun x hx => ?_
  rw [hmem x hx]
  tauto

/-- **Containment**, given that of predicates that are no `Or` and the difference of one from an
`Or`. -/
theorem subsumes_spec_of_atoms {P : Predicate → Prop} (hover : ∀ {p}, P p → Over levels p)
    (harms : ∀ {arms : List Predicate}, P (.ofOr arms) → ∀ a ∈ arms, P a)
    (hatom : ∀ {p q}, P p → P q → p.isOr = false → q.isOr = false →
      Decides (subsumes p q) (∀ x, InLevels levels x → Mem q x → Mem p x))
    (hminus : ∀ {p q}, P p → P q → p.isOr = true → q.isOr = false →
      Returns levels (fun _ => True) (minus q p) (fun x => Mem q x ∧ ¬Mem p x)) (hp : P p)
    (hq : P q) : Decides (subsumes p q) (∀ x, InLevels levels x → Mem q x → Mem p x) := by
  have hsingle : ∀ {q}, P q → q.isOr = false → ∀ {p}, P p →
      Decides (subsumes p q) (∀ x, InLevels levels x → Mem q x → Mem p x) := by
    intro q hq hqor p hp
    induction p with
    | ofOr arms ih =>
      refine subsumes_decides (hover hp) (hover hq) fun hqf hpt => ?_
      have heq : subsumes (.ofOr arms) q = do
          if ← arms.anyM fun a => subsumes a q then some true
          else return (← minus q (.ofOr arms)).isFalse := by
        rw [subsumes_def]
        simp only [hqf, hpt, Bool.false_eq_true, if_false]
        cases q <;> first | rfl | simp [isOr] at hqor
      rw [heq]
      have hany := Decides.anyM fun a ha => ih a ha (harms hp a ha)
      refine (hany.or fun _ => decides_isFalse_minus (hminus hp hq rfl hqor)).congr ?_
      refine or_iff_right_of_imp ?_
      rintro ⟨a, ha, hsub⟩ x hx hmem
      exact .ofOr ha (hsub x hx hmem)
    | _ => exact hatom hp hq rfl hqor
  induction q with
  | ofOr arms ih =>
    refine subsumes_decides (hover hp) (hover hq) fun hqf hpt => ?_
    have heq : subsumes p (.ofOr arms) = arms.allM fun a => subsumes p a := by
      rw [subsumes_def]
      simp [hqf, hpt]
    rw [heq]
    refine (Decides.allM fun a ha => ih a ha (harms hq a ha)).congr ?_
    constructor
    · intro h x hx hmem
      obtain ⟨a, ha, hax⟩ := mem_ofOr.mp hmem
      exact h a ha x hx hax
    · exact fun h a ha x hx hax => h x hx (.ofOr ha hax)
  | _ => exact hsingle hq rfl hp

/-! ## The whole algebra -/

/-- The operations are exact over `levels` on predicates that are no `Or`, and arms flatten. -/
structure Atoms (levels : List Extent) : Prop where
  arms : ArmClass levels (Arm levels)
  intersect : ∀ {p q}, Over levels p → Over levels q → p.isOr = false → q.isOr = false →
    Returns levels (fun _ => True) (intersect p q) (fun x => Mem p x ∧ Mem q x)
  union : ∀ {p q}, Over levels p → Over levels q → p.isOr = false → q.isOr = false →
    Returns levels (fun _ => True) (union p q) (fun x => Mem p x ∨ Mem q x)
  minus : ∀ {p q}, Over levels p → Over levels q → p.isOr = false → q.isOr = false →
    Returns levels (fun _ => True) (minus p q) (fun x => Mem p x ∧ ¬Mem q x)
  complement : ∀ {τ s}, Over levels (.ofIntervals τ s) →
    Returns levels (fun _ => True) (intervals τ (IntervalOps.complement s))
      (fun x => ¬Mem (.ofIntervals τ s) x)

section Whole

variable (h : Atoms levels)

include h

lemma Atoms.flattenOr_spec (hne : arms ≠ []) (harms : ∀ p ∈ arms, Over levels p) :
    Returns levels (fun _ => True) (flattenOr arms) (fun x => ∃ p ∈ arms, Mem p x) :=
  (Predicate.flattenOr_spec h.arms hne harms fun p hp => (harms p hp).spreads).forget

lemma Atoms.minus_spec (hp : Over levels p) (hq : Over levels q) :
    Returns levels (fun _ => True) (Predicate.minus p q) (fun x => Mem p x ∧ ¬Mem q x) := by
  have hff : Arm levels .ff := (Over.ff_of_ne_nil hp.levels_ne_nil).arm rfl
  exact (minus_spec_of_atoms h.arms hff (fun hs => (h.complement hs).spreads)
    (fun hpA hpor hq hqor => (h.minus hpA.1 hq hpor hqor).spreads) hp hp.spreads hq).forget

lemma Atoms.subsumes_spec (hp : Over levels p) (hq : Over levels q) :
    Decides (Predicate.subsumes p q) (∀ x, InLevels levels x → Mem q x → Mem p x) := by
  exact subsumes_spec_of_atoms (fun hp => hp) (fun hor a ha => hor.of_mem_arms ha)
    (fun hp hq hpor hqor => h.arms.subsumes (hp.arm hpor) (hq.arm hqor))
    (fun hp hq _ _ => h.minus_spec hq hp) hp hq

omit h in
/-- Meeting each arm with one region meets the whole with it. -/
lemma intersect_arms_spec (hflat : ArmClass levels (Arm levels)) {C : List KeyPoint → Prop}
    (hne : arms ≠ [])
    (hf : ∀ a ∈ arms, Returns levels (fun _ => True) (f a) (fun x => Mem a x ∧ C x)) :
    Returns levels (fun _ => True) (do Predicate.flattenOr (← arms.mapM f))
      (fun x => Mem (.ofOr arms) x ∧ C x) := by
  refine (flattenOr_mapM_spec hflat hne fun a ha => (hf a ha).spreads).forget.congr fun x _ => ?_
  simp only [mem_ofOr, ← and_assoc, exists_and_right]

lemma Atoms.intersect_spec (hp : Over levels p) (hq : Over levels q) :
    Returns levels (fun _ => True) (Predicate.intersect p q) (fun x => Mem p x ∧ Mem q x) := by
  have hleft : ∀ {q}, Over levels q → (∀ {p}, Over levels p → p.isOr = false →
        Returns levels (fun _ => True) (Predicate.intersect p q) (fun x => Mem p x ∧ Mem q x)) →
      ∀ {p}, Over levels p →
        Returns levels (fun _ => True) (Predicate.intersect p q) (fun x => Mem p x ∧ Mem q x) := by
    intro q hq hbase p hp
    induction p with
    | ofOr arms ih =>
      cases hp with
      | ofOr hne hover hnest =>
        refine intersect_returns (.ofOr hne hover hnest) hq fun _ hqc => ?_
        have harms := intersect_arms_spec h.arms hne fun a ha => ih a ha (hover a ha)
        rw [Predicate.intersect_def]
        cases q with
        | tt | ff => simp at hqc
        | _ => exact harms
    | _ => exact hbase hp rfl
  induction q generalizing p with
  | ofOr arms ih =>
    refine hleft hq (fun {p} hp hpor => ?_) hp
    cases hq with
    | ofOr hne hover hnest =>
      refine intersect_returns hp (.ofOr hne hover hnest) fun hpc _ => ?_
      have harms := (intersect_arms_spec h.arms hne fun a ha =>
        (ih a ha hp (hover a ha)).congr fun x _ => and_comm).congr fun x _ => and_comm
      rw [Predicate.intersect_def]
      cases p with
      | tt | ff => simp at hpc
      | ofOr _ => cases hpor
      | _ => exact harms
  | _ => exact hleft hq (fun hp hpor => h.intersect hp hq hpor rfl) hp

lemma Atoms.union_spec (hp : Over levels p) (hq : Over levels q) :
    Returns levels (fun _ => True) (Predicate.union p q) (fun x => Mem p x ∨ Mem q x) := by
  cases hpor : p.isOr with
  | true =>
    cases hp with
    | @ofOr _ arms hne hover hnest =>
      refine union_returns (.ofOr hne hover hnest) hq fun _ hqc => ?_
      have hflat := h.flattenOr_spec
          (append_ne_nil_of_right_ne_nil arms (cons_ne_nil q [])) fun a ha => by
        rcases mem_append.mp ha with ha | ha
        · exact hover a ha
        · exact mem_singleton.mp ha ▸ hq
      have harms := hflat.congr (T := fun x => Mem (.ofOr arms) x ∨ Mem q x) fun x _ => by
        simp [mem_ofOr, or_and_right, exists_or]
      rw [Predicate.union_def]
      cases q with
      | tt | ff => simp at hqc
      | _ => exact harms
    | _ => cases hpor
  | false =>
    cases hqor : q.isOr with
    | true =>
      cases hq with
      | @ofOr _ arms hne hover hnest =>
        refine union_returns hp (.ofOr hne hover hnest) fun hpc _ => ?_
        have hflat := h.flattenOr_spec (cons_ne_nil p arms) fun a ha => by
          rcases List.mem_cons.mp ha with rfl | ha
          · exact hp
          · exact hover a ha
        have harms := hflat.congr (T := fun x => Mem p x ∨ Mem (.ofOr arms) x) fun x _ => by
          simp [mem_ofOr]
        rw [Predicate.union_def]
        cases p with
        | tt | ff => simp at hpc
        | ofOr _ => cases hpor
        | _ => exact harms
      | _ => cases hqor
    | false => exact h.union hp hq hpor hqor

/-- **The algebra from its atoms.** -/
theorem Atoms.algebra : Algebra levels :=
  ⟨h.intersect_spec, h.union_spec, h.minus_spec, h.subsumes_spec⟩

end Whole

end Predicate

end Cambra
