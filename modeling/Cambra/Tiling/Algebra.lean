import Cambra.Tiling.Leaves
import Cambra.Tiling.Unions

/-!
# The predicate algebra is exact

Over every list of levels the predicate operations return and denote the set operations
(`algebra_of_wellFormed`), by induction over the extent of a level and then over the levels.

At one level a predicate that is no `Or` is constant or follows the shape of the level: an interval
set, a record of predicates on the fields, payload predicates under tags.  Over several levels it is
one of those, or qualified by a predicate on the enclosing paths.
-/

namespace Cambra

namespace Predicate

variable {p q : Predicate} {own : Extent} {o : Option Predicate}

/-- The predicates over one level that are no `Or`, by shape. -/
lemma Over.atom_cases (hp : Over [own] p) (hor : p.isOr = false) : p = .tt ∨ p = .ff ∨
      (∃ τ s, p = .ofIntervals τ s ∧ own.resolve.scalarType = some τ ∧ CanonicalIn τ s) ∨
      (∃ es m, p = .ofRecord m ∧ own.resolve = .record es) ∨
      ∃ arms tags rest, p = .ofUnion tags rest ∧ own.resolve = .union arms := by
  cases hp with
  | tt | ff => simp
  | ofIntervals hown hs => exact .inr (.inr (.inl ⟨_, _, rfl, hown, hs⟩))
  | ofRecord hown _ _ _ => exact .inr (.inr (.inr (.inl ⟨_, _, rfl, hown⟩)))
  | ofOr _ _ _ => cases hor
  | ofUnion hown _ _ _ => exact .inr (.inr (.inr (.inr ⟨_, _, _, rfl, hown⟩)))
  | ofQualified hne _ _ => exact absurd rfl hne

/-- Two predicates over one level that are no `Or` have one shape, unless one is constant. -/
lemma Over.atom_cases₂ (hp : Over [own] p) (hpor : p.isOr = false) (hq : Over [own] q)
    (hqor : q.isOr = false) :
    (p = .tt ∨ p = .ff) ∨ (q = .tt ∨ q = .ff) ∨
      (∃ τ s t, p = .ofIntervals τ s ∧ q = .ofIntervals τ t ∧ own.resolve.scalarType = some τ ∧
        CanonicalIn τ s ∧ CanonicalIn τ t) ∨
      (∃ m n, p = .ofRecord m ∧ q = .ofRecord n) ∨
      ∃ arms ps pr qs qr, p = .ofUnion ps pr ∧ q = .ofUnion qs qr ∧ own.resolve = .union arms := by
  rcases hp.atom_cases hpor with hp | hp | ⟨τ, s, rfl, hown, hs⟩ | ⟨es, m, rfl, hown⟩ |
    ⟨arms, ps, pr, rfl, hown⟩
  · exact .inl (.inl hp)
  · exact .inl (.inr hp)
  all_goals
    rcases hq.atom_cases hqor with hq | hq | ⟨σ, t, rfl, hown', ht⟩ | ⟨es', n, rfl, hown'⟩ |
      ⟨arms', qs, qr, rfl, hown'⟩
    · exact .inr (.inl (.inl hq))
    · exact .inr (.inl (.inr hq))
    -- a level has one shape
    all_goals first
      | simp [hown, Extent.scalarType] at hown'; done
      | simp [hown', Extent.scalarType] at hown; done
      | skip
  · obtain rfl : τ = σ := Option.mem_unique hown hown'
    exact .inr (.inr (.inl ⟨τ, s, t, rfl, rfl, hown, hs, ht⟩))
  · exact .inr (.inr (.inr (.inl ⟨m, n, rfl, rfl⟩)))
  · exact .inr (.inr (.inr (.inr ⟨arms, ps, pr, qs, qr, rfl, rfl, hown⟩)))

lemma Over.not_isQualified (hp : Over [own] p) : p.isQualified = false := by
  cases hp with
  | ofQualified hne _ _ => exact absurd rfl hne
  | _ => rfl

/-- What is returned over the innermost level is returned under any enclosing ones. -/
lemma Returns.under {S T : List KeyPoint → Prop} (h : Returns [own] (fun _ => True) o S)
    (above : List Extent) (hST : ∀ x xs, S [x] ↔ T (x :: xs)) :
    Returns (own :: above) (fun r => Over [own] r) o T := by
  obtain ⟨r, hr, hover, _, hmem⟩ := h
  refine ⟨r, hr, hover.under above, hover, fun x hx => ?_⟩
  obtain ⟨x, xs, rfl, hx, _⟩ := hx.exists_cons
  rw [mem_cons_iff hover.not_qualifies, hmem [x] (inLevels_singleton.mpr hx), hST x xs]

lemma Over.arm_under (hp : Over [own] p) (above : List Extent) : Arm (own :: above) p :=
  ⟨hp.under above, fun _ => hp.not_qualifies⟩

lemma Arm.innermost (hp : Arm (own :: above) p) (hq : p.isQualified = false) : Over [own] p :=
  hp.1.own (hp.not_qualifies hq)

/-- Two arms of which neither names an enclosing path are over the innermost level. -/
lemma Arm.qualified_or_innermost (hp : Arm (own :: above) p) (hq : Arm (own :: above) q) :
    (p.isQualified = true ∨ q.isQualified = true) ∨ Over [own] p ∧ Over [own] q := by
  by_cases h : p.isQualified = true ∨ q.isQualified = true
  · exact .inl h
  · simp only [not_or, Bool.not_eq_true] at h
    exact .inr ⟨hp.innermost h.1, hq.innermost h.2⟩

lemma isTrue_ofQualified (enclosing here : Predicate) :
    (ofQualified enclosing here).isTrue = false := by
  rw [isTrue, asBool]
  split_ifs <;> rfl

lemma isPlain_of_not_constant (hor : p.isOr = false) (h : ¬(p = .tt ∨ p = .ff)) :
    p.isPlain = true := by
  cases p <;> simp_all [isOr, isPlain]

lemma sizeOf_resolve_le (e : Extent) : sizeOf e.resolve ≤ sizeOf e := by
  cases e <;> simp [Extent.resolve]

variable [ScalarOps]

/-! ## One level -/

/-- The extents inside a level have exact algebras. -/
structure Inner (own : Extent) : Prop where
  record : ∀ {es}, own.resolve = .record es →
    KeysAscend es ∧ ∀ k e, es.lookup k = some e → Algebra [e]
  union : ∀ {arms}, own.resolve = .union arms → ∀ t e, arms.lookup t = some e → Algebra [e]

/-- Containment between two predicates of no common shape subtracts. -/
lemma subsumes_eq_minus (hpor : p.isOr = false) (hqor : q.isOr = false)
    (hpq : p.isQualified = false) (hqq : q.isQualified = false)
    (hconst : p.isPlain = false ∨ q.isPlain = false) (hqf : q.isFalse = false)
    (hpt : p.isTrue = false) : subsumes p q = do return (← minus q p).isFalse := by
  rw [subsumes_def]
  simp only [hqf, hpt, Bool.false_eq_true, if_false]
  cases p <;> cases q <;>
    first
    | simp [isOr] at hpor hqor; done
    | simp [isQualified] at hpq hqq; done
    | simp [isPlain] at hconst; done
    | rfl

section OneLevel

variable (hin : Inner own)

include hin

variable {n : List (String × Predicate)} {m : List (String × Predicate)} {τ : ScalarType}

lemma Inner.reads (hm : Over [own] (.ofRecord m)) (hn : Over [own] (.ofRecord n)) :
    Reads [own] (RecordArm own) (.ofRecord m) (.ofRecord n) := by
  obtain ⟨es, hown⟩ : ∃ es, own.resolve = .record es := by
    cases hm with
    | ofRecord hown _ _ _ => exact ⟨_, hown⟩
  obtain ⟨hasc, hes⟩ := hin.record hown
  exact reads_records hown hasc hes hm hn

lemma Inner.recordArms : ArmClass [own] (RecordArm own) where
  isOver h := h.1
  ofOr hne harms := by
    refine .ofOr hne (fun p hp => (harms p hp).1) fun p hp hor => ?_
    rcases (harms p hp).2 with rfl | ⟨m, rfl⟩ <;> cases hor
  join := by
    rintro a b ⟨ha, rfl | ⟨m, rfl⟩⟩ ⟨hb, rfl | ⟨n, rfl⟩⟩
    · exact ⟨none, by rw [join_def]; rfl, by simp⟩
    · exact ⟨none, by rw [join_def]; rfl, by simp⟩
    · exact ⟨none, by rw [join_def]; rfl, by simp⟩
    · exact (hin.reads ha hb).join_spec
  spreads := by
    rintro p ⟨hp, rfl | ⟨m, rfl⟩⟩
    · exact .of_not_isOr rfl ⟨hp, .inl rfl⟩
    · exact .of_not_isOr rfl ⟨hp, .inr ⟨m, rfl⟩⟩
  subsumes := by
    rintro a b ⟨ha, rfl | ⟨m, rfl⟩⟩ ⟨hb, rfl | ⟨n, rfl⟩⟩
    · exact subsumes_decides ha hb fun hbf _ => by simp [isFalse, asBool] at hbf
    · refine subsumes_decides ha hb fun hbf hat => ?_
      rw [subsumes_eq_minus rfl rfl rfl rfl (.inl rfl) hbf hat]
      exact decides_isFalse_minus (minus_returns hb ha trivial trivial fun h => by
        simp [isFalse, asBool] at h)
    · exact subsumes_decides ha hb fun hbf _ => by simp [isFalse, asBool] at hbf
    · exact subsumes_decides ha hb fun hbf hat => (hin.reads ha hb).subsumes_spec rfl rfl hb hbf hat

/-- A predicate over one level that is no `Or`. -/
def Atom (own : Extent) (p : Predicate) : Prop := Over [own] p ∧ p.isOr = false

omit hin [ScalarOps] in
lemma Returns.of_atom {S : List KeyPoint → Prop} (h : Returns [own] (fun r => r.isOr = false) o S) :
    Returns [own] (Spreads (Atom own)) o S :=
  h.mono fun _ hover hor => .of_not_isOr hor ⟨hover, hor⟩

omit hin in
lemma complement_spec {s : IntervalSet τ.Val} (hs : Over [own] (.ofIntervals τ s)) :
    Returns [own] (fun r => r.isOr = false) (intervals τ (IntervalOps.complement s))
      (fun x => ¬Mem (.ofIntervals τ s) x) := by
  cases hs with
  | ofIntervals hown hs =>
    refine (intervals_spec hown (IntervalOps.complement_valid hs.canonical)).congr fun x hx => ?_
    obtain ⟨k, rfl, hk⟩ := hx.exists_singleton
    obtain ⟨y, rfl, hy⟩ := hk.exists_scalar hown
    simp only [mem_ofIntervals, IntervalOps.mem_complement hs.canonical hy.1]

lemma Inner.minus_records (hm : Over [own] (.ofRecord m)) (hn : Over [own] (.ofRecord n)) :
    Returns [own] (Spreads (RecordArm own)) (minus (.ofRecord m) (.ofRecord n))
      (fun x => Mem (.ofRecord m) x ∧ ¬Mem (.ofRecord n) x) := by
  have harms := hin.recordArms
  refine minus_returns hm hn (harms.spreads ⟨hm, .inr ⟨m, rfl⟩⟩)
    (harms.spreads ⟨.ff, .inl rfl⟩) fun hqf hqt hpf => ?_
  rw [minus_eq_minusByShape hqf hqt hpf (by simp)]
  exact (hin.reads hm hn).minusByShape_spec harms rfl rfl

omit hin [ScalarOps] in
lemma Spreads.atom_of_record (h : Spreads (RecordArm own) p) : Spreads (Atom own) p := by
  intro a ha
  obtain ⟨hover, rfl | ⟨m, rfl⟩⟩ := h a ha
  · exact ⟨hover, rfl⟩
  · exact ⟨hover, rfl⟩

/-- Everything over a record level, as the record of everything in each field. -/
lemma Inner.minus_tt_record (hn : Over [own] (.ofRecord n)) :
    Returns [own] (Spreads (RecordArm own)) (minusByShape .tt (.ofRecord n))
      (fun x => ¬Mem (.ofRecord n) x) := by
  rw [minusByShape_def]
  set whole := n.map fun kp => (kp.1, Predicate.tt)
  have hwhole : ∀ k p, (k, p) ∈ whole → p = .tt := by
    intro k p hp
    obtain ⟨_, _, heq⟩ := List.mem_map.mp hp
    exact (Prod.mk.inj heq).2.symm
  cases hn with
  | ofRecord hown hasc hkeys hover =>
    have hwkeys : whole.map (·.1) = n.map (·.1) := by simp [whole]
    have hwover : Over [own] (.ofRecord whole) := by
      refine .ofRecord hown (by rwa [KeysAscend, hwkeys]) (hwkeys.trans hkeys) ?_
      intro k p e hp _
      rw [hwhole k p hp]
      exact .tt
    refine (hin.minus_records hwover (.ofRecord hown hasc hkeys hover)).congr fun x hx => ?_
    obtain ⟨k, rfl, hk⟩ := hx.exists_singleton
    obtain ⟨f, rfl, _⟩ := hk.exists_record hown
    refine and_iff_right (.ofRecord fun k p hp => ?_)
    rw [hwhole k p hp]
    exact .tt

lemma Inner.minus_tt_union {tags : List (FieldKey × Predicate)} {rest : Bool}
    (h : Over [own] (.ofUnion tags rest)) :
    Returns [own] (fun r => r.isOr = false) (minusByShape .tt (.ofUnion tags rest))
      (fun x => ¬Mem (.ofUnion tags rest) x) := by
  rw [minusByShape_def]
  dsimp only
  obtain ⟨arms, hown⟩ : ∃ arms, own.resolve = .union arms := by
    cases h with
    | ofUnion hown => exact ⟨_, hown⟩
  obtain ⟨hasc, hover⟩ := (over_ofUnion_iff hown).mp h
  have hnamed : ∀ kp ∈ tags, ∃ r, minus .tt kp.2 = some r ∧ ∃ e, arms.lookup kp.1 = some e ∧
      Over [e] r ∧ ∀ y, InExtent e y →
        (Mem r [y] ↔ ¬Mem (.ofUnion tags rest) [.tag (some kp.1) y]) := by
    intro kp hkp
    obtain ⟨e, he, hover⟩ := hover kp hkp
    obtain ⟨r, hr, hro, _, hmem⟩ := (hin.union hown kp.1 e he).minus .tt hover
    refine ⟨r, hr, e, he, hro, fun y hy => ?_⟩
    rw [hmem _ (inLevels_singleton.mpr hy)]
    simp [mem_ofUnion_some, atTag, (lookup_eq_some_iff_mem hasc.nodup).mpr hkp]
  obtain ⟨tags', htags, _, r, hr, hspec⟩ := tagged_mapM_spec (!rest) hown
    (S := fun x => ¬Mem (.ofUnion tags rest) x) hasc hnamed fun t ht y => by
      cases t with
      | none => simp [mem_ofUnion_none]
      | some t =>
        have hnot : t ∉ tags.map (·.1) := fun hmem => ht t hmem rfl
        simp [mem_ofUnion_some, atTag_eq_ofBool hnot]
  exact ⟨r, by rw [htags]; exact hr, hspec⟩

omit hin [ScalarOps] in
@[simp] lemma asBool_ofBool (b : Bool) : (ofBool b).asBool = some b := by
  cases b <;> simp [ofBool, asBool]

omit hin in
lemma intersect_ofBool (b c : Bool) : intersect (ofBool b) (ofBool c) = some (ofBool (b && c)) := by
  cases b <;> cases c <;> (rw [intersect_def]; rfl)

omit hin in
lemma union_ofBool (b c : Bool) : union (ofBool b) (ofBool c) = some (ofBool (b || c)) := by
  cases b <;> cases c <;> (rw [union_def]; rfl)

omit hin in
lemma minus_ofBool (b c : Bool) : minus (ofBool b) (ofBool c) = some (ofBool (b && !c)) := by
  cases b <;> cases c <;> (rw [minus_def]; simp [ofBool, isFalse, isTrue, asBool])

/-- **Difference** of two predicates over one level that are no `Or`. -/
lemma Inner.minus_atoms (hp : Atom own p) (hq : Atom own q) :
    Returns [own] (Spreads (Atom own)) (minus p q) (fun x => Mem p x ∧ ¬Mem q x) := by
  refine minus_returns hp.1 hq.1 (.of_not_isOr hp.2 hp) (.of_not_isOr rfl ⟨.ff, rfl⟩)
    fun hqf hqt hpf => ?_
  have hpff : p ≠ .ff := by
    rintro rfl
    simp [isFalse, asBool] at hpf
  rcases hp.1.atom_cases₂ hp.2 hq.1 hq.2 with (rfl | rfl) | (rfl | rfl) |
    ⟨τ, s, t, rfl, rfl, hown, hs, ht⟩ | ⟨m, n, rfl, rfl⟩ | ⟨arms, ps, pr, qs, qr, rfl, rfl, hown⟩
  · simp only [mem_tt, true_and]
    rcases hq.1.atom_cases hq.2 with rfl | rfl | ⟨τ, t, rfl, -, -⟩ | ⟨-, n, rfl, -⟩ |
      ⟨-, qs, qr, rfl, -⟩
    · simp [isTrue, asBool] at hqt
    · simp [isFalse, asBool] at hqf
    · rw [minus_def]
      simp only [hqf, hqt, hpf, Bool.false_eq_true, if_false]
      simp only [isTrue, asBool, Option.getD_some, if_true]
      exact (complement_spec hq.1).of_atom
    · rw [minus_eq_minusByShape hqf hqt hpf (by simp)]
      exact (hin.minus_tt_record hq.1).mono fun _ _ h => h.atom_of_record
    · rw [minus_eq_minusByShape hqf hqt hpf (by simp)]
      exact (hin.minus_tt_union hq.1).of_atom
  · exact absurd rfl hpff
  · simp [isTrue, asBool] at hqt
  · simp [isFalse, asBool] at hqf
  · rw [minus_def]
    simp only [hqf, hqt, hpf, Bool.false_eq_true, if_false, dite_true]
    refine (intervals_spec hown (IntervalOps.difference_valid hs.canonical
      ht.canonical)).of_atom.congr fun x hx => ?_
    obtain ⟨k, rfl, hk⟩ := hx.exists_singleton
    obtain ⟨y, rfl, hy⟩ := hk.exists_scalar hown
    simp only [mem_ofIntervals, IntervalOps.mem_difference hs.canonical ht.canonical hy.1]
  · exact (hin.minus_records hp.1 hq.1).mono fun _ _ h => h.atom_of_record
  · rw [minus_eq_minusByShape hqf hqt hpf (by simp), minusByShape]
    exact (zipTags_spec (fun a b => a ∧ ¬b) hown
      (fun ht hp hq => (hin.union hown _ _ ht).minus hp hq) hp.1 hq.1 (minus_ofBool pr qr)
      (asBool_ofBool _) (by simp)).of_atom

omit hin in
lemma subsumes_intervals {s t : IntervalSet τ.Val} (hown : own.resolve.scalarType = some τ)
    (hs : CanonicalIn τ s) (ht : CanonicalIn τ t) :
    Decides (some !hasDifference t s)
      (∀ x, InLevels [own] x → Mem (.ofIntervals τ t) x → Mem (.ofIntervals τ s) x) := by
  refine ⟨_, rfl, ?_⟩
  rw [Bool.not_eq_true', hasDifference_iff ht.canonical ht.left_isSome hs.canonical]
  constructor
  · intro h x hx
    obtain ⟨k, rfl, hk⟩ := hx.exists_singleton
    obtain ⟨y, rfl, hy⟩ := hk.exists_scalar hown
    rw [mem_ofIntervals, mem_ofIntervals]
    exact h y hy.1
  · intro h y hy hmem
    have hin : InLevels [own] [.scalar τ y] := inLevels_singleton.mpr
      (inExtent_resolve_iff.mp (.scalar hown ⟨hy, ht.within y hy hmem⟩))
    exact mem_ofIntervals.mp (h _ hin (mem_ofIntervals.mpr hmem))

lemma Inner.subsumes_unions {arms : List (FieldKey × Extent)} (hown : own.resolve = .union arms)
    {ps qs : List (FieldKey × Predicate)} {pr qr : Bool} (hp : Over [own] (.ofUnion ps pr))
    (hq : Over [own] (.ofUnion qs qr)) :
    Decides (if pr || !qr then
        (ps.map (·.1) ++ qs.map (·.1)).allM fun tag =>
          subsumes (atTag ps pr tag) (atTag qs qr tag)
      else some false)
      (∀ x, InLevels [own] x → Mem (.ofUnion qs qr) x → Mem (.ofUnion ps pr) x) := by
  by_cases hrest : (pr || !qr) = true
  · simp only [hrest, if_true]
    have himp : qr = true → pr = true := by cases pr <;> cases qr <;> simp_all
    have htag : ∀ t ∈ ps.map (·.1) ++ qs.map (·.1), ∃ e, arms.lookup t = some e := fun t ht =>
      (List.mem_append.mp ht).elim (hp.exists_arm hown) (hq.exists_arm hown)
    refine (Decides.allM (P := fun t => ∀ e, arms.lookup t = some e → ∀ y, InExtent e y →
      Mem (atTag qs qr t) [y] → Mem (atTag ps pr t) [y]) fun t ht => ?_).congr ?_
    · obtain ⟨e, he⟩ := htag t ht
      refine ((hin.union hown t e he).subsumes (hp.atTag hown he) (hq.atTag hown he)).congr ?_
      constructor
      · intro h e' he' y hy
        obtain rfl := Option.mem_unique he he'
        exact h [y] (inLevels_singleton.mpr hy)
      · intro h x hx
        obtain ⟨y, rfl, hy⟩ := hx.exists_singleton
        exact h e he y hy
    · constructor
      · intro h x hx hmem
        obtain ⟨k, rfl, hk⟩ := hx.exists_singleton
        rcases hk.exists_tag hown with ⟨t, e, y, rfl, ht, hy⟩ | ⟨y, rfl⟩
        · rw [mem_ofUnion_some] at hmem ⊢
          by_cases hmem' : t ∈ ps.map (·.1) ++ qs.map (·.1)
          · exact h t hmem' e ht y hy hmem
          · rw [List.mem_append, not_or] at hmem'
            rw [atTag_eq_ofBool hmem'.2, mem_ofBool] at hmem
            rw [atTag_eq_ofBool hmem'.1, mem_ofBool]
            exact himp hmem
        · rw [mem_ofUnion_none] at hmem ⊢
          exact himp hmem
      · intro h t _ e he y hy
        have hin : InLevels [own] [.tag (some t) y] := by
          rw [inLevels_singleton, ← inExtent_resolve_iff, hown]
          exact .named he hy
        simpa only [mem_ofUnion_some] using h _ hin
  · refine .of_false (by simp only [hrest]; rfl) fun h => ?_
    have hin : InLevels [own] [.tag none .unit] := by
      rw [inLevels_singleton, ← inExtent_resolve_iff, hown]
      exact .unnamed
    have := h _ hin
    rw [mem_ofUnion_none, mem_ofUnion_none] at this
    cases pr <;> cases qr <;> simp_all

/-- **Containment** of two predicates over one level that are no `Or`. -/
lemma Inner.subsumes_atoms (hp : Atom own p) (hq : Atom own q) :
    Decides (subsumes p q) (∀ x, InLevels [own] x → Mem q x → Mem p x) := by
  refine subsumes_decides hp.1 hq.1 fun hqf hpt => ?_
  have hminus := decides_isFalse_minus (hin.minus_atoms hq hp).forget
  rcases hp.1.atom_cases₂ hp.2 hq.1 hq.2 with (rfl | rfl) | (rfl | rfl) |
    ⟨τ, s, t, rfl, rfl, hown, hs, ht⟩ | ⟨m, n, rfl, rfl⟩ | ⟨arms, ps, pr, qs, qr, rfl, rfl, hown⟩
  · simp [isTrue, asBool] at hpt
  · rwa [subsumes_eq_minus rfl hq.2 rfl hq.1.not_isQualified (.inl rfl) hqf hpt]
  · rwa [subsumes_eq_minus hp.2 rfl hp.1.not_isQualified rfl (.inr rfl) hqf hpt]
  · simp [isFalse, asBool] at hqf
  · rw [subsumes_def]
    simp only [hqf, hpt, Bool.false_eq_true, if_false, dite_true]
    exact subsumes_intervals hown hs ht
  · exact (hin.reads hp.1 hq.1).subsumes_spec rfl rfl hq.1 hqf hpt
  · rw [subsumes_def]
    simp only [hqf, hpt, Bool.false_eq_true, if_false]
    exact hin.subsumes_unions hown hp.1 hq.1

omit hin in
/-- Only two records, or a qualified predicate and another, can join. -/
lemma join_eq_none (hp : p.isQualified = false) (hq : q.isQualified = false)
    (h : ∀ m n, p = .ofRecord m → q ≠ .ofRecord n) : join p q = some none := by
  rw [join_def]
  cases p <;> cases q <;>
    first
    | simp [isQualified] at hp hq; done
    | exact absurd rfl (h _ _ rfl)
    | rfl

lemma Inner.join_spec (hp : Over [own] p) (hq : Over [own] q) :
    ∃ o, join p q = some o ∧ ∀ r, o = some r → Atom own r ∧
      ∀ x, InLevels [own] x → (Mem r x ↔ Mem p x ∨ Mem q x) := by
  by_cases h : ∃ m n, p = .ofRecord m ∧ q = .ofRecord n
  · obtain ⟨m, n, rfl, rfl⟩ := h
    obtain ⟨o, ho, hr⟩ := (hin.reads hp hq).join_spec
    refine ⟨o, ho, fun r hro => ⟨⟨(hr r hro).1.1, ?_⟩, (hr r hro).2⟩⟩
    rcases (hr r hro).1.2 with rfl | ⟨m, rfl⟩ <;> rfl
  · refine ⟨none, join_eq_none hp.not_isQualified hq.not_isQualified ?_, by simp⟩
    exact fun m n hm hn => h ⟨m, n, hm, hn⟩

lemma Inner.atomArms : ArmClass [own] (Atom own) where
  isOver h := h.1
  ofOr hne harms := .ofOr hne (fun p hp => (harms p hp).1) fun p hp hor => by
    simp [(harms p hp).2] at hor
  join ha hb := hin.join_spec ha.1 hb.1
  spreads hp := .of_not_isOr hp.2 hp
  subsumes ha hb := hin.subsumes_atoms ha hb

lemma Inner.subsumes_spec (hp : Over [own] p) (hq : Over [own] q) :
    Decides (subsumes p q) (∀ x, InLevels [own] x → Mem q x → Mem p x) := by
  refine subsumes_spec_of_atoms (fun hp => hp) (fun hor a ha => hor.of_mem_arms ha)
    (fun hp hq hpor hqor => hin.subsumes_atoms ⟨hp, hpor⟩ ⟨hq, hqor⟩) (fun hp hq _ hqor => ?_) hp hq
  exact (minus_spec_of_atoms hin.atomArms ⟨.ff, rfl⟩ (fun hs => (complement_spec hs).of_atom)
    (fun hpA _ hq hqor => hin.minus_atoms hpA ⟨hq, hqor⟩) hq (.of_not_isOr hqor ⟨hq, hqor⟩)
    hp).forget

lemma Inner.arms : ArmClass [own] (Arm [own]) where
  isOver h := h.1
  ofOr := Arm.ofOr
  join ha hb := by
    obtain ⟨o, ho, hr⟩ := hin.join_spec ha.1 hb.1
    exact ⟨o, ho, fun r hro => ⟨(hr r hro).1.1.arm (hr r hro).1.2, (hr r hro).2⟩⟩
  spreads hp := hp.1.spreads
  subsumes ha hb := hin.subsumes_spec ha.1 hb.1

/-- **Meet** of two predicates over one level that are no `Or`. -/
lemma Inner.intersect_atoms (hp : Atom own p) (hq : Atom own q) :
    Returns [own] (fun _ => True) (intersect p q) (fun x => Mem p x ∧ Mem q x) := by
  refine intersect_returns hp.1 hq.1 fun hpc hqc => ?_
  rcases hp.1.atom_cases₂ hp.2 hq.1 hq.2 with h | h | ⟨τ, s, t, rfl, rfl, hown, hs, ht⟩ |
    ⟨m, n, rfl, rfl⟩ | ⟨arms, ps, pr, qs, qr, rfl, rfl, hown⟩
  · exact absurd h hpc
  · exact absurd h hqc
  · rw [intersect_def]
    simp only [dite_true]
    refine (intervals_spec hown (IntervalOps.intersection_valid hs.canonical.valid
      ht.canonical.valid)).forget.congr fun x hx => ?_
    obtain ⟨k, rfl, hk⟩ := hx.exists_singleton
    obtain ⟨y, rfl, hy⟩ := hk.exists_scalar hown
    simp [mem_ofIntervals, IntervalOps.mem_intersection hs.canonical.valid ht.canonical.valid hy.1]
  · exact ((hin.reads hp.1 hq.1).intersect_spec rfl rfl).forget
  · rw [intersect_def]
    exact (zipTags_spec And hown (fun ht hp hq => (hin.union hown _ _ ht).intersect hp hq) hp.1 hq.1
      (intersect_ofBool pr qr) (asBool_ofBool _) (by simp)).forget

/-- **Join** of two predicates over one level that are no `Or`. -/
lemma Inner.union_atoms (hp : Atom own p) (hq : Atom own q) :
    Returns [own] (fun _ => True) (Predicate.union p q) (fun x => Mem p x ∨ Mem q x) := by
  refine union_returns hp.1 hq.1 fun hpc hqc => ?_
  rcases hp.1.atom_cases₂ hp.2 hq.1 hq.2 with h | h | ⟨τ, s, t, rfl, rfl, hown, hs, ht⟩ |
    ⟨m, n, rfl, rfl⟩ | ⟨arms, ps, pr, qs, qr, rfl, rfl, hown⟩
  · exact absurd h hpc
  · exact absurd h hqc
  · rw [Predicate.union_def]
    simp only [dite_true]
    refine (intervals_spec hown (IntervalOps.union_valid hs.canonical
      ht.canonical)).forget.congr fun x hx => ?_
    obtain ⟨k, rfl, hk⟩ := hx.exists_singleton
    obtain ⟨y, rfl, hy⟩ := hk.exists_scalar hown
    simp only [mem_ofIntervals, IntervalOps.mem_union hs.canonical ht.canonical hy.1]
  · exact ((hin.reads hp.1 hq.1).union_spec hin.recordArms ⟨hp.1, .inr ⟨_, rfl⟩⟩
      ⟨hq.1, .inr ⟨_, rfl⟩⟩ rfl rfl).forget
  · rw [Predicate.union_def]
    exact (zipTags_spec Or hown (fun ht hp hq => (hin.union hown _ _ ht).union hp hq) hp.1 hq.1
      (union_ofBool pr qr) (asBool_ofBool _) (by simp)).forget

/-- **The operations at one level.** -/
theorem Inner.atoms : Atoms [own] where
  arms := hin.arms
  intersect hp hq hpor hqor := hin.intersect_atoms ⟨hp, hpor⟩ ⟨hq, hqor⟩
  union hp hq hpor hqor := hin.union_atoms ⟨hp, hpor⟩ ⟨hq, hqor⟩
  minus hp hq hpor hqor := (hin.minus_atoms ⟨hp, hpor⟩ ⟨hq, hqor⟩).forget
  complement hs := (complement_spec hs).forget

end OneLevel

/-! ## Several levels -/

lemma joinInto_nil (p : Predicate) : joinInto p 0 [] = some [p] := by
  rw [joinInto_def]
  rfl

lemma withoutSubsumed_singleton (p : Predicate) : withoutSubsumed [p] = some [p] := by
  rw [withoutSubsumed_def]
  rfl

lemma flattenOr_singleton (hor : p.isOr = false) : flattenOr [p] = some p := by
  rw [flattenOr_def]
  simp [spreadArms_singleton_of_not_isOr hor, joinInto_nil, withoutSubsumed_singleton, ofReduced]

section Levels

variable {above : List Extent} (hne : above ≠ []) (hown : Atoms [own]) (habove : Algebra above)

include hown in
lemma Atoms.minus_under (hp : Over [own] p) (hq : Over [own] q) :
    Returns (own :: above) (Arm (own :: above)) (Predicate.minus p q)
      (fun x => Mem p x ∧ ¬Mem q x) := by
  refine ((hown.algebra.minus hp hq).under above fun x xs => ?_).mono
    fun r _ hr => hr.arm_under above
  exact and_congr (mem_cons_iff hp.not_qualifies).symm
    (not_congr (mem_cons_iff hq.not_qualifies).symm)

include hown in
lemma Atoms.subsumes_under (hp : Over [own] p) (hq : Over [own] q) :
    Decides (Predicate.subsumes p q) (∀ x, InLevels (own :: above) x → Mem q x → Mem p x) := by
  refine (hown.algebra.subsumes hp hq).congr ?_
  constructor
  · intro h x hx
    obtain ⟨x, xs, rfl, hx, _⟩ := hx.exists_cons
    rw [mem_cons_iff hp.not_qualifies, mem_cons_iff hq.not_qualifies]
    exact h [x] (inLevels_singleton.mpr hx)
  · intro h x hx
    obtain ⟨x, rfl, hin⟩ := InLevels.exists_singleton hx
    obtain ⟨xs, hxs⟩ := exists_inLevels above
    have := h (x :: xs) (.cons hin hxs)
    rwa [mem_cons_iff hp.not_qualifies, mem_cons_iff hq.not_qualifies] at this

/-- The staircase of a qualified predicate and an unqualified one has one step. -/
lemma minusComponents_unqualified {enclosing here k s : Predicate} (hk : minus here q = some k)
    (hs : Componentwise.build .qualified [enclosing, k] = some s) :
    Componentwise.minus .qualified [enclosing, here] [.tt, q] =
      if s.isFalse then some .ff else flattenOr [s] := by
  have hminus : minus enclosing .tt = some .ff := by
    rw [minus_def]
    simp [isFalse, isTrue, asBool]
  have hmeet : intersect enclosing .tt = some enclosing := by
    rw [intersect_def]
    cases enclosing <;> rfl
  have hempty : Componentwise.build .qualified [.ff, here] = some .ff := by
    simp [Componentwise.build, isFalse, asBool]
  rw [minusComponents_def]
  have hff : isFalse .ff = true := by simp [isFalse, asBool]
  rcases hsf : s.isFalse with _ | _ <;>
    simp [List.zipIdx, List.mapM_cons, hminus, hmeet, hempty, hk, hs, hff, hsf]

include hne hown in
/-- Keys taken from a qualified predicate: the enclosing paths stay. -/
lemma minus_qualified_unqualified {enclosing here : Predicate}
    (hp : Over (own :: above) (.ofQualified enclosing here)) (hq : Over [own] q)
    (hqor : q.isOr = false) :
    Returns (own :: above) (Arm (own :: above)) (minus (.ofQualified enclosing here) q)
      (fun x => Mem (.ofQualified enclosing here) x ∧ ¬Mem q x) := by
  have hff : Arm (own :: above) .ff := ⟨.ff, by simp [isOr]⟩
  refine minus_returns hp (hq.under above) (hp.arm rfl) hff fun hqf hqt hpf => ?_
  rw [minus_eq_minusByShape hqf hqt hpf fun τ s _ => ⟨isTrue_ofQualified _ _, by simp⟩,
    minusByShape_eq_staircase (componentwise_of_qualified (.inl rfl)) rfl hqor]
  have hhalves : q.halves = [.tt, q] := by
    have := hq.not_isQualified
    cases q <;> simp_all [halves, splitQualification, isQualified]
  cases hp with
  | ofQualified _ he hh =>
    obtain ⟨k, hk, hko, _, hkmem⟩ := hown.algebra.minus hh hq
    obtain ⟨s, hs, hso, hsA, hsmem⟩ := (qualifiedShape hne).build_spec (.cons he (.cons hko .nil))
    have hregion : ∀ x, InLevels (own :: above) x →
        (Mem s x ↔ Mem (.ofQualified enclosing here) x ∧ ¬Mem q x) := by
      intro x hx
      rw [hsmem x hx]
      obtain ⟨x, xs, rfl, hx, _⟩ := hx.exists_cons
      simp [splitPath, MemComponents, mem_ofQualified, hkmem [x] (inLevels_singleton.mpr hx),
        mem_cons_iff hq.not_qualifies, and_assoc]
    rw [hhalves, show (ofQualified enclosing here).halves = [enclosing, here] from rfl,
      minusComponents_unqualified hk hs]
    split_ifs with hsf
    · refine ⟨.ff, rfl, .ff, hff, fun x hx => Iff.trans ?_ (hregion x hx)⟩
      simpa using not_mem_of_isFalse hso (isFalse_iff_asBool.mp hsf) x
    refine Returns.congr ?_ hregion
    cases hsq : s.isQualified with
    | true =>
      have hsor : s.isOr = false := by cases s <;> simp_all [isOr, isQualified]
      exact ⟨s, flattenOr_singleton hsor, hso, hsA, fun x _ => Iff.rfl⟩
    | false =>
      have hsown := hsA.innermost hsq
      refine ((hown.flattenOr_spec (List.cons_ne_nil s []) (by simpa using hsown)).under above
        fun x xs => ?_).mono fun r _ hr => hr.arm_under above
      simp [mem_cons_iff hsown.not_qualifies]

include hne hown in
/-- **Difference from a predicate that names no enclosing path.** -/
lemma minus_unqualified (hp : Arm (own :: above) p) (hq : Over [own] q) :
    Returns (own :: above) (Arm (own :: above)) (minus p q) (fun x => Mem p x ∧ ¬Mem q x) := by
  induction q generalizing p with
  | ofOr arms ih =>
    cases hpq : p.isQualified with
    | false => exact hown.minus_under (hp.innermost hpq) hq
    | true =>
      have hff : Arm (own :: above) .ff := ⟨.ff, by simp [isOr]⟩
      refine minus_returns hp.1 (hq.under above) hp hff fun hqf hqt hpf => ?_
      rw [minus_eq_minusByShape hqf hqt hpf (by simp)]
      have hpor : p.isOr = false := by cases p <;> simp_all [isOr, isQualified]
      rw [minusByShape_ofOr hpor]
      exact foldlM_minus_spec hp.1 hp fun a ha r _ hr => ih a ha hr (hq.of_mem_arms ha)
  | _ =>
    cases hpq : p.isQualified with
    | false => exact hown.minus_under (hp.innermost hpq) hq
    | true =>
      cases p with
      | ofQualified e h => exact minus_qualified_unqualified hne hown hp.1 hq rfl
      | _ => cases hpq

include hne hown habove in
lemma levelArms : ArmClass (own :: above) (Arm (own :: above)) where
  isOver h := h.1
  ofOr := Arm.ofOr
  join := by
    intro a b ha hb
    rcases ha.qualified_or_innermost hb with hq | ⟨hao, hbo⟩
    · exact (reads_qualified hne habove hown.algebra ha hb hq).join_spec
    obtain ⟨o, ho, hr⟩ := hown.arms.join (hao.arm_under []) (hbo.arm_under [])
    refine ⟨o, ho, fun r hro => ?_⟩
    obtain ⟨hrA, hrmem⟩ := hr r hro
    refine ⟨hrA.1.arm_under above, fun x hx => ?_⟩
    obtain ⟨x, xs, rfl, hx, _⟩ := hx.exists_cons
    rw [mem_cons_iff hrA.1.not_qualifies, mem_cons_iff hao.not_qualifies,
      mem_cons_iff hbo.not_qualifies]
    exact hrmem [x] (inLevels_singleton.mpr hx)
  spreads hp := hp.1.spreads
  subsumes := by
    refine fun ha hb => subsumes_spec_of_atoms (fun hp => hp.1) (fun hor a ha => ?_)
      (fun {p q} hp hq hpor hqor => ?_) (fun {p q} hp hq hpor hqor => ?_) ha hb
    · have hqual := qualifies_ofOr.mp (hor.2 rfl) a ha
      cases hor.1 with
      | ofOr _ hover _ => exact ⟨hover a ha, fun _ => hqual⟩
    · rcases hp.qualified_or_innermost hq with hpq | ⟨hpo, hqo⟩
      · exact subsumes_decides hp.1 hq.1 fun hqf hpt =>
          (reads_qualified hne habove hown.algebra hp hq hpq).subsumes_spec hpor hqor hq.1 hqf hpt
      · exact hown.subsumes_under hpo hqo
    · have hpo : Over [own] p := hp.1.own (hp.2 hpor)
      exact (minus_unqualified hne hown hq hpo).forget

include hne hown habove in
/-- **The operations over several levels.** -/
theorem levelAtoms : Atoms (own :: above) where
  arms := levelArms hne hown habove
  intersect {p q} hp hq hpor hqor := by
    refine intersect_returns hp hq fun hpc hqc => ?_
    have hpA := hp.arm hpor
    have hqA := hq.arm hqor
    rcases hpA.qualified_or_innermost hqA with hpq | ⟨hpo, hqo⟩
    · exact ((reads_qualified hne habove hown.algebra hpA hqA hpq).intersect_spec
        (isPlain_of_not_constant hpor hpc) (isPlain_of_not_constant hqor hqc)).forget
    · refine ((hown.algebra.intersect hpo hqo).under above fun x xs => ?_).forget
      exact and_congr (mem_cons_iff hpo.not_qualifies).symm (mem_cons_iff hqo.not_qualifies).symm
  union {p q} hp hq hpor hqor := by
    refine union_returns hp hq fun hpc hqc => ?_
    have hpA := hp.arm hpor
    have hqA := hq.arm hqor
    rcases hpA.qualified_or_innermost hqA with hpq | ⟨hpo, hqo⟩
    · exact ((reads_qualified hne habove hown.algebra hpA hqA hpq).union_spec
        (levelArms hne hown habove) hpA hqA (isPlain_of_not_constant hpor hpc)
        (isPlain_of_not_constant hqor hqc)).forget
    · refine ((hown.algebra.union hpo hqo).under above fun x xs => ?_).forget
      exact or_congr (mem_cons_iff hpo.not_qualifies).symm (mem_cons_iff hqo.not_qualifies).symm
  minus {p q} hp hq hpor hqor := by
    have hpA := hp.arm hpor
    have hqA := hq.arm hqor
    rcases hpA.qualified_or_innermost hqA with hpq | ⟨hpo, hqo⟩
    · refine minus_returns hp hq trivial trivial fun hqf hqt hpf => ?_
      rw [minus_eq_minusByShape hqf hqt hpf fun τ s hqs => ?_]
      · exact ((reads_qualified hne habove hown.algebra hpA hqA hpq).minusByShape_spec
          (levelArms hne hown habove) hpor hqor).forget
      · subst hqs
        have hpq : p.isQualified = true := hpq.resolve_right (by simp [isQualified])
        cases p with
        | ofQualified e h => exact ⟨isTrue_ofQualified e h, by simp⟩
        | _ => cases hpq
    · exact (hown.minus_under hpo hqo).forget
  complement {τ s} hs := by
    have hso := hs.own (by simp [qualifies])
    refine ((complement_spec hso).forget.under above fun x xs => ?_).forget
    exact not_congr (mem_cons_iff hso.not_qualifies).symm

end Levels

/-! ## All levels -/

/-- **The algebra at one level**, by induction over its extent. -/
theorem atoms_of_wellFormed {e : Extent} (he : e.WellFormed) : Atoms [e] := by
  induction hn : sizeOf e using Nat.strong_induction_on generalizing e with
  | _ n ih =>
    subst hn
    have hle := sizeOf_resolve_le e
    refine Inner.atoms ⟨fun {es} hown => ?_, fun {arms} hown t e' ht => ?_⟩
    · obtain ⟨hasc, hwf⟩ := he.record_fields hown
      refine ⟨hasc, fun k e' hk => (ih _ ?_ (hwf k e' hk) rfl).algebra⟩
      have hlt : sizeOf e' < sizeOf es := sizeOf_snd_lt_of_mem (mem_of_lookup_eq_some hk)
      simp only [hown, Extent.record.sizeOf_spec] at hle
      omega
    · refine (ih _ ?_ (he.union_arms hown t e' ht) rfl).algebra
      have hlt : sizeOf e' < sizeOf arms := sizeOf_snd_lt_of_mem (mem_of_lookup_eq_some ht)
      simp only [hown, Extent.union.sizeOf_spec] at hle
      omega

/-- **The predicate algebra is exact** over every list of levels. -/
theorem atoms_of_levels {levels : List Extent} (hne : levels ≠ [])
    (hl : ∀ e ∈ levels, e.WellFormed) : Atoms levels := by
  induction levels with
  | nil => exact absurd rfl hne
  | cons own above ih =>
    have hown := atoms_of_wellFormed (hl own (by simp))
    by_cases habove : above = []
    · subst habove
      exact hown
    · exact levelAtoms habove hown (ih habove fun e he => hl e (by simp [he])).algebra

end Predicate

end Cambra
