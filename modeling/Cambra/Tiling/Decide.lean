import Cambra.Tiling.Exact

/-!
# Containment and emptiness over values

`subsumes` and `as_bool` are exact over the points of the levels: the lines of the scalar types and
one tag that nothing names.  Here they are read over values, with the unions of the levels open.

An open union takes nothing away: a value under a tag that its union does not list is told from no
point under an unnamed tag (`exists_point_of_ofOpen`).  What can differ are the gaps of a line,
points that are no values.  `type_range` ends the range of an `Int` at its greatest value but leaves
that of a `UInt` unbounded above, so `(u64::MAX, ∞)` is taken for a region; and no string is known
to follow another, so the space between a string and its successor is one too.

The answers are right exactly where neither the region asked about nor the part of the one that the
other leaves out lies in gaps alone (`decidedExactly_iff`).  Levels of integers, Booleans and units,
under records and unions, have no gaps (`decided_of_pointed`); on `[0, u64::MAX]` the answers
are wrong (`greatest_uint_not_whole`).
-/

namespace Cambra

namespace Predicate

/-! ## Points that no predicate tells apart -/

/-- The predicates over the extent admit both points or neither. -/
def SameAt (e : Extent) (x y : KeyPoint) : Prop := ∀ p, Over [e] p → (Mem p [x] ↔ Mem p [y])

lemma SameAt.refl (e : Extent) (x : KeyPoint) : SameAt e x x := fun _ _ => Iff.rfl

variable {e : Extent} {x y : KeyPoint} {arms : List (FieldKey × Extent)} {p : Predicate}
  {levels : List Extent} {path : List Value}

lemma SameAt.of_atoms (h : ∀ p, Over [e] p → p.isOr = false → (Mem p [x] ↔ Mem p [y])) :
    SameAt e x y := by
  refine fun p hp => hp.or_induction (fun arms ih => ?_) h
  rw [mem_ofOr, mem_ofOr]
  exact exists_congr fun p => and_congr_right (ih p)

lemma SameAt.record {es : List (String × Extent)} {f g : String → KeyPoint}
    (h : ∀ k e, es.lookup k = some e → SameAt e (f k) (g k)) :
    SameAt (.record es) (.record f) (.record g) := by
  refine .of_atoms fun p hp hor => ?_
  cases hp with
  | tt | ff => simp
  | ofIntervals hown _ => cases hown
  | ofRecord hown _ hkeys hm =>
    obtain rfl := Extent.record.inj hown
    rw [mem_ofRecord, mem_ofRecord]
    refine forall_congr' fun k => forall_congr' fun p => imp_congr_right fun hp => ?_
    obtain ⟨e, he⟩ := exists_lookup_of_keys_eq hkeys hp
    exact h k e he p (hm k p e hp he)
  | ofOr _ _ _ => cases hor
  | ofUnion hown _ _ _ => cases hown
  | ofQualified hne _ _ => exact absurd rfl hne

/-- Over a union, two tagged points are the same where its unions are. -/
lemma SameAt.of_unions (h : ∀ tags rest, (∀ k p, (k, p) ∈ tags → (arms.lookup k).isSome) →
      (∀ k p e, (k, p) ∈ tags → arms.lookup k = some e → Over [e] p) →
      (Mem (.ofUnion tags rest) [x] ↔ Mem (.ofUnion tags rest) [y])) :
    SameAt (.union arms) x y := by
  refine .of_atoms fun p hp hor => ?_
  cases hp with
  | tt | ff => simp
  | ofIntervals hown _ => cases hown
  | ofRecord hown _ _ _ => cases hown
  | ofOr _ _ _ => cases hor
  | ofUnion hown _ hsome hm =>
    obtain rfl := Extent.union.inj hown
    exact h _ _ hsome hm
  | ofQualified hne _ _ => exact absurd rfl hne

lemma SameAt.named {t : FieldKey} (ht : arms.lookup t = some e) (h : SameAt e x y) :
    SameAt (.union arms) (.tag (some t) x) (.tag (some t) y) := by
  refine .of_unions fun tags rest _ hm => ?_
  rw [mem_ofUnion_some, mem_ofUnion_some, atTag]
  cases hlook : tags.lookup t with
  | none => simp
  | some p => exact h p (hm t p e (mem_of_lookup_eq_some hlook) ht)

/-- A tag that the union does not list is one that nothing names. -/
lemma SameAt.unnamed {t : FieldKey} (ht : arms.lookup t = none) (x y : KeyPoint) :
    SameAt (.union arms) (.tag (some t) x) (.tag none y) := by
  refine .of_unions fun tags rest hsome _ => ?_
  have hlook : tags.lookup t = none := by
    by_contra hne
    obtain ⟨p, hp⟩ := Option.ne_none_iff_exists'.mp hne
    simpa [ht] using hsome t p (mem_of_lookup_eq_some hp)
  rw [mem_ofUnion_some, mem_ofUnion_none, atTag, hlook]
  simp

/-- A wrapper is looked through once, and what it holds is looked at as it is. -/
lemma Over.of_resolve (hp : Over [e] p) : Over [e.resolve] p := by
  generalize hl : [e] = levels at hp
  induction hp with
  | tt => exact .tt
  | ff => exact .ff
  | ofIntervals hown hs =>
    cases hl
    exact .ofIntervals (by rwa [Extent.resolve_eq_of_scalarType hown]) hs
  | ofRecord hown hasc hkeys hm _ =>
    cases hl
    exact .ofRecord (by rw [hown]; rfl) hasc hkeys hm
  | ofOr hne _ hnest ih => exact .ofOr hne (fun p hp => ih p hp hl) hnest
  | ofUnion hown hkeys hsome hm _ =>
    cases hl
    exact .ofUnion (by rw [hown]; rfl) hkeys hsome hm
  | ofQualified hne _ _ _ _ =>
    cases hl
    exact absurd rfl hne

lemma SameAt.of_resolve (h : SameAt e.resolve x y) : SameAt e x y := fun p hp => h p hp.of_resolve

/-- The predicates over the levels admit both paths or neither. -/
def SameAlong (levels : List Extent) (xs ys : List KeyPoint) : Prop :=
  ∀ p, Over levels p → (Mem p xs ↔ Mem p ys)

lemma SameAlong.cons {own : Extent} {above : List Extent} {xs ys : List KeyPoint}
    (h : SameAt own x y) (hs : SameAlong above xs ys) :
    SameAlong (own :: above) (x :: xs) (y :: ys) := by
  -- a predicate that names no enclosing path reads the head alone
  have hown : ∀ {p}, Over (own :: above) p → p.qualifies = false →
      (Mem p (x :: xs) ↔ Mem p (y :: ys)) := fun hp hq =>
    (mem_cons_iff hq).trans ((h _ (hp.own hq)).trans (mem_cons_iff hq).symm)
  refine fun p hp => hp.or_induction (fun arms ih => ?_) fun p hp hor => ?_
  · rw [mem_ofOr, mem_ofOr]
    exact exists_congr fun p => and_congr_right (ih p)
  · cases hq : p.isQualified with
    | false => exact hown hp (qualifies_eq_false (by simp [hor]) hq)
    | true =>
      cases hp with
      | ofQualified _ he hh =>
        rw [mem_ofQualified, mem_ofQualified]
        exact and_congr (hs _ he) (h _ hh)
      | _ => cases hq

/-! ## Values as points -/

/-- **A value of an open extent is a point**, up to what predicates tell apart. -/
lemma exists_point_of_ofOpen {v : Value} (hv : v.OfOpen e) :
    ∃ x, InExtent e x ∧ SameAt e v.point x := by
  induction hv with
  | scalar h v =>
    exact ⟨Value.point (.scalar _ v), .scalar h ⟨trivial, typeRange_mem_here _ v⟩, .refl _ _⟩
  | unit => exact ⟨_, .unit, .refl _ _⟩
  | @record es fields hsome _ ih =>
    have hfield : ∀ k, ∃ x, ∀ e, es.lookup k = some e →
        InExtent e x ∧ SameAt e (Value.fieldPoint fields k) x := by
      intro k
      cases hk : es.lookup k with
      | none => exact ⟨.unit, by simp⟩
      | some e =>
        obtain ⟨v, hv⟩ := Option.isSome_iff_exists.mp (hsome k e hk)
        obtain ⟨x, hx, hsame⟩ := ih k e v hk hv
        refine ⟨x, fun e' he' => ?_⟩
        cases he'
        rw [Value.fieldPoint_eq hv]
        exact ⟨hx, hsame⟩
    choose f hf using hfield
    exact ⟨.record f, .record fun k e he => (hf k e he).1, .record fun k e he => (hf k e he).2⟩
  | union htag _ ih =>
    obtain ⟨x, hx, hsame⟩ := ih
    exact ⟨_, .named htag hx, .named htag hsame⟩
  | unlisted htag => exact ⟨.tag none .unit, .unnamed, .unnamed htag _ _⟩
  | dataSourceDomain _ ih =>
    obtain ⟨x, hx, hsame⟩ := ih
    exact ⟨x, .dataSourceDomain hx, .of_resolve hsame⟩
  | restricted _ ih =>
    obtain ⟨x, hx, hsame⟩ := ih
    exact ⟨x, .restricted hx, .of_resolve hsame⟩

lemma exists_path_of_openValuesOf (h : OpenValuesOf levels path) :
    ∃ xs, InLevels levels xs ∧ SameAlong levels (path.map Value.point) xs := by
  induction h with
  | nil => exact ⟨[], .nil, fun _ _ => Iff.rfl⟩
  | cons hv _ ih =>
    obtain ⟨x, hx, hsame⟩ := exists_point_of_ofOpen hv
    obtain ⟨xs, hxs, hsames⟩ := ih
    exact ⟨x :: xs, .cons hx hxs, .cons hsame hsames⟩

/-! ## The answers on values -/

/-- `subsumes` and `as_bool` answer on the paths of values what they are asked. -/
structure DecidedExactly [ScalarOps] (levels : List Extent) (p q : Predicate) : Prop where
  containment : Decides (subsumes p q)
    (∀ path, OpenValuesOf levels path → q.Admits path → p.Admits path)
  empty : p.asBool = some false ↔ ∀ path, OpenValuesOf levels path → ¬p.Admits path
  whole : p.asBool = some true → ∀ path, OpenValuesOf levels path → p.Admits path

/-- The region does not lie in gaps alone: where it has a point, it has a path of values. -/
def Populated (levels : List Extent) (S : List KeyPoint → Prop) : Prop :=
  (∃ x, InLevels levels x ∧ S x) → ∃ path, OpenValuesOf levels path ∧ S (path.map Value.point)

section

variable (hl : ∀ e ∈ levels, e.WellFormed)

include hl

lemma Applies.admits_iff_open (hp : p.Applies levels) (hpath : OpenValuesOf levels path) :
    p.Admits path ↔ Mem p (path.map Value.point) := by
  obtain ⟨b, hb, hiff⟩ := containsPath_decides_open (hp.over hl) hpath
  simpa [Admits, hb] using hiff

/-- What is empty on points is empty on values, and conversely where the region is populated. -/
lemma Applies.asBool_false_iff (hp : p.Applies levels) :
    (p.asBool = some false ↔ ∀ path, OpenValuesOf levels path → ¬p.Admits path) ↔
      Populated levels (Mem p) := by
  have hover := hp.over hl
  have hempty : p.asBool = some false ↔ ∀ x, InLevels levels x → ¬Mem p x := by
    rw [← isFalse_iff_asBool, isFalse_iff hover]
  constructor
  · rintro hiff ⟨x, hx, hmem⟩
    by_contra hnone
    refine hempty.mp (hiff.mpr fun path hpath hadm => hnone ⟨path, hpath, ?_⟩) x hx hmem
    exact (hp.admits_iff_open hl hpath).mp hadm
  · intro hpop
    constructor
    · intro hfalse path hpath hadm
      exact not_mem_of_isFalse hover hfalse _ ((hp.admits_iff_open hl hpath).mp hadm)
    · intro hall
      refine hempty.mpr fun x hx hmem => ?_
      obtain ⟨path, hpath, hpmem⟩ := hpop ⟨x, hx, hmem⟩
      exact hall path hpath ((hp.admits_iff_open hl hpath).mpr hpmem)

lemma Applies.admits_of_asBool_true (hp : p.Applies levels) (h : p.asBool = some true)
    (hpath : OpenValuesOf levels path) : p.Admits path := by
  obtain ⟨x, hx, hsame⟩ := exists_path_of_openValuesOf hpath
  rw [hp.admits_iff_open hl hpath, hsame p (hp.over hl)]
  exact mem_of_isTrue (hp.over hl) (isTrue_iff.mpr h) hx

/-- Containment is right exactly where what `p` leaves out of `q` is populated. -/
lemma Applies.subsumes_decides_iff [ScalarOps] (hne : levels ≠ [])
    {q : Predicate} (hp : p.Applies levels) (hq : q.Applies levels) :
    Decides (subsumes p q) (∀ path, OpenValuesOf levels path → q.Admits path → p.Admits path) ↔
      Populated levels (fun x => Mem q x ∧ ¬Mem p x) := by
  obtain ⟨b, hb, hpoints⟩ := (atoms_of_levels hne hl).subsumes_spec (hp.over hl) (hq.over hl)
  -- containment on points is containment on values
  have hvalues : b = true → ∀ path, OpenValuesOf levels path → q.Admits path → p.Admits path := by
    intro hbt path hpath hadm
    obtain ⟨x, hx, hsame⟩ := exists_path_of_openValuesOf hpath
    rw [hp.admits_iff_open hl hpath, hsame p (hp.over hl)]
    rw [hq.admits_iff_open hl hpath, hsame q (hq.over hl)] at hadm
    exact hpoints.mp hbt x hx hadm
  constructor
  · rintro ⟨b', hb', hiff⟩ ⟨x, hx, hqx, hpx⟩
    obtain rfl := Option.mem_unique hb hb'
    have hnot : ¬∀ path, OpenValuesOf levels path → q.Admits path → p.Admits path := fun hall =>
      hpx (hpoints.mp (hiff.mpr hall) x hx hqx)
    push Not at hnot
    obtain ⟨path, hpath, hqadm, hpadm⟩ := hnot
    rw [hq.admits_iff_open hl hpath] at hqadm
    rw [hp.admits_iff_open hl hpath] at hpadm
    exact ⟨path, hpath, hqadm, hpadm⟩
  · intro hpop
    refine ⟨b, hb, hvalues, fun hall => hpoints.mpr fun x hx hqx => ?_⟩
    by_contra hpx
    obtain ⟨path, hpath, hqmem, hpmem⟩ := hpop ⟨x, hx, hqx, hpx⟩
    have hadm := hall path hpath ((hq.admits_iff_open hl hpath).mpr hqmem)
    exact hpmem ((hp.admits_iff_open hl hpath).mp hadm)

end

/-- **Containment and emptiness are decided exactly where no region asked about lies in the gaps of
the key types**: the region of `p`, and what `p` leaves out of `q`. -/
theorem decidedExactly_iff [ScalarOps] {levels : List Extent}
    (hne : levels ≠ []) (hl : ∀ e ∈ levels, e.WellFormed) {p q : Predicate}
    (hp : p.Applies levels) (hq : q.Applies levels) :
    DecidedExactly levels p q ↔
      Populated levels (Mem p) ∧ Populated levels (fun x => Mem q x ∧ ¬Mem p x) := by
  rw [← hp.asBool_false_iff hl, ← hp.subsumes_decides_iff hl hne hq]
  constructor
  · exact fun h => ⟨h.empty, h.containment⟩
  · exact fun h => ⟨h.2, h.1, fun htrue path hpath => hp.admits_of_asBool_true hl htrue hpath⟩

/-! ## Levels without gaps -/

/-- Every point of the extent is a value: no `UInt`, `String` or function.  As everywhere here, a
restricted extent is read as all values of its base and a `UIntRange` as all of `UInt`, so what is
decided is decided over these, with the values a restriction leaves out among them. -/
inductive Pointed : Extent → Prop
  | int : Pointed (.base .int)
  | bool : Pointed (.base .bool)
  | unit : Pointed (.base .unit)
  | record {es : List (String × Extent)} (h : ∀ k e, es.lookup k = some e → Pointed e) :
      Pointed (.record es)
  | union {arms : List (FieldKey × Extent)} (h : ∀ k e, arms.lookup k = some e → Pointed e) :
      Pointed (.union arms)
  | dataSourceDomain {e : Extent} (h : Pointed e) : Pointed (.dataSourceDomain e)
  | restricted {e : Extent} (h : Pointed e) : Pointed (.restricted e)

lemma exists_here_of_int {x : Point I64} (hx : ScalarType.int.InRange x) : ∃ v, x = .here v := by
  obtain ⟨hvalid, hleft, hright⟩ := hx
  have hlow : ¬x.Lt ⟨-2 ^ 63, by decide⟩ := hleft ⟨false, ⟨-2 ^ 63, by decide⟩⟩ rfl
  have hhigh : ¬x.Gt ⟨2 ^ 63 - 1, by decide⟩ := hright ⟨false, ⟨2 ^ 63 - 1, by decide⟩⟩ rfl
  cases x with
  | here v => exact ⟨v, rfl⟩
  | below v =>
    -- only the least integer has no integer below it
    have hnone : ¬-2 ^ 63 ≤ v.1 - 1 := by simpa [Point.Valid, Domain.tryAdjacent] using hvalid
    exact absurd (Subtype.mk_le_mk.mpr (by omega) : v ≤ ⟨-2 ^ 63, by decide⟩) hlow
  | above v =>
    have hnone : ¬v.1 + 1 < 2 ^ 63 := by simpa [Point.Valid, Domain.tryAdjacent] using hvalid
    exact absurd (Subtype.mk_le_mk.mpr (by omega) : (⟨2 ^ 63 - 1, by decide⟩ : I64) ≤ v) hhigh

lemma exists_unlisted (arms : List (FieldKey × Extent)) : ∃ t, arms.lookup t = none := by
  have hinf : Infinite FieldKey := .of_injective FieldKey.index fun _ _ => FieldKey.index.inj
  obtain ⟨t, ht⟩ := Infinite.exists_notMem_finset (arms.map (·.1)).toFinset
  refine ⟨t, ?_⟩
  by_contra hne
  rw [← ne_eq, ← Option.isSome_iff_ne_none, lookup_isSome_iff_mem_keys] at hne
  exact ht (List.mem_toFinset.mpr hne)

/-- Where there are no gaps, a point is a value. -/
lemma Pointed.exists_value (he : Pointed e) (hx : InExtent e x) :
    ∃ v : Value, v.OfOpen e ∧ SameAt e v.point x := by
  induction he generalizing x with
  | int =>
    obtain ⟨y, rfl, hy⟩ := hx.exists_scalar rfl
    obtain ⟨v, rfl⟩ := exists_here_of_int hy
    have hint : Extent.scalarType (.base .int) = some .int := rfl
    exact ⟨.scalar .int v, .scalar hint v, .refl _ _⟩
  | bool =>
    obtain ⟨c, hc⟩ := exists_boolPoint (inLevels_singleton.mpr hx)
    obtain rfl := (List.cons.inj hc).1
    have hbool : Extent.scalarType (.base .bool) = some .bool := rfl
    exact ⟨.scalar .bool c, .scalar hbool c, .refl _ _⟩
  | unit =>
    cases hx with
    | scalar h _ => cases h
    | unit => exact ⟨.unit, .unit, .refl _ _⟩
  | @record es _ ih =>
    obtain ⟨f, rfl, hf⟩ := hx.exists_record rfl
    have hfield : ∀ k, ∃ v : Value, ∀ e, es.lookup k = some e →
        v.OfOpen e ∧ SameAt e v.point (f k) := by
      intro k
      cases hk : es.lookup k with
      | none => exact ⟨.unit, by simp⟩
      | some e =>
        obtain ⟨v, hv, hsame⟩ := ih k e hk (hf k e hk)
        refine ⟨v, fun e' he' => ?_⟩
        cases he'
        exact ⟨hv, hsame⟩
    choose g hg using hfield
    have hlook : ∀ k e, es.lookup k = some e →
        (es.map fun ke => (ke.1, g ke.1)).lookup k = some (g k) := by
      intro k e hk
      rw [lookup_map_entry (fun k _ => g k), hk]
      rfl
    refine ⟨.record (es.map fun ke => (ke.1, g ke.1)), .record ?_ ?_, .record ?_⟩
    · intro k e hk
      simp [hlook k e hk]
    · intro k e v hk hv
      obtain rfl := Option.some.inj ((hlook k e hk).symm.trans hv)
      exact (hg k e hk).1
    · intro k e hk
      rw [Value.fieldPoint_eq (hlook k e hk)]
      exact (hg k e hk).2
  | @union arms _ ih =>
    rcases hx.exists_tag rfl with ⟨t, e, y, rfl, ht, hy⟩ | ⟨y, rfl⟩
    · obtain ⟨v, hv, hsame⟩ := ih t e ht hy
      exact ⟨.union t v, .union ht hv, .named ht hsame⟩
    · obtain ⟨t, ht⟩ := exists_unlisted arms
      exact ⟨.union t .unit, .unlisted ht, .unnamed ht _ _⟩
  | dataSourceDomain _ ih =>
    obtain ⟨v, hv, hsame⟩ := ih (inExtent_resolve_iff.mpr hx)
    exact ⟨v, .dataSourceDomain hv, .of_resolve hsame⟩
  | restricted _ ih =>
    obtain ⟨v, hv, hsame⟩ := ih (inExtent_resolve_iff.mpr hx)
    exact ⟨v, .restricted hv, .of_resolve hsame⟩

lemma exists_values_of_pointed (hlev : ∀ e ∈ levels, Pointed e) {xs : List KeyPoint}
    (hxs : InLevels levels xs) :
    ∃ path, OpenValuesOf levels path ∧ SameAlong levels (path.map Value.point) xs := by
  induction hxs with
  | nil => exact ⟨[], .nil, fun _ _ => Iff.rfl⟩
  | cons hx _ ih =>
    obtain ⟨v, hv, hsame⟩ := (hlev _ (by simp)).exists_value hx
    obtain ⟨path, hpath, hsames⟩ := ih fun e he => hlev e (by simp [he])
    exact ⟨v :: path, .cons hv hpath, .cons hsame hsames⟩

/-- A region that predicates cut out is populated over levels without gaps. -/
lemma populated_of_pointed (hlev : ∀ e ∈ levels, Pointed e) {S : List KeyPoint → Prop}
    (hS : ∀ xs ys, SameAlong levels xs ys → (S xs ↔ S ys)) : Populated levels S := by
  rintro ⟨x, hx, hmem⟩
  obtain ⟨path, hpath, hsame⟩ := exists_values_of_pointed hlev hx
  exact ⟨path, hpath, (hS _ _ hsame).mpr hmem⟩

/-- **Over levels without gaps the answers are right for all predicates.** -/
theorem decided_of_pointed [ScalarOps] (hne : levels ≠ [])
    (hl : ∀ e ∈ levels, e.WellFormed) (hlev : ∀ e ∈ levels, Pointed e) {q : Predicate}
    (hp : p.Applies levels) (hq : q.Applies levels) :
    Decides (subsumes p q) (∀ path, OpenValuesOf levels path → q.Admits path → p.Admits path) ∧
      (p.asBool = some false ↔ ∀ path, OpenValuesOf levels path → ¬p.Admits path) := by
  rw [hp.asBool_false_iff hl, hp.subsumes_decides_iff hl hne hq]
  refine ⟨populated_of_pointed hlev fun xs ys hsame => ?_, populated_of_pointed hlev ?_⟩
  · rw [hsame q (hq.over hl), hsame p (hp.over hl)]
  · exact fun xs ys hsame => hsame p (hp.over hl)

theorem decided_of_pointed_two_bools : (onlyBool true).Applies [.base .bool, .base .bool] ∧
    bothTrue.Applies [.base .bool, .base .bool] ∧
    Decides (subsumes (onlyBool true) bothTrue)
      (∀ path, OpenValuesOf [.base .bool, .base .bool] path → bothTrue.Admits path →
        (onlyBool true).Admits path) ∧
    ((onlyBool true).asBool = some false ↔
      ∀ path, OpenValuesOf [.base .bool, .base .bool] path → ¬(onlyBool true).Admits path) := by
  have hp := onlyBool_applies_two true
  have hq : bothTrue.Applies [.base .bool, .base .bool] := qualified_bools_applies true true
  exact ⟨hp, hq, decided_of_pointed (by simp) (by simp [Extent.WellFormed.base])
    (by simp [Pointed.bool]) hp hq⟩

/-! ## At the greatest `UInt` -/

/-- `[0, n]`: what `at_or_below` builds. -/
def uintsUpTo (n : U64) : Predicate := .ofIntervals .uint [⟨some ⟨false, 0⟩, some ⟨false, n⟩⟩]

lemma uintsUpTo_applies (n : U64) : (uintsUpTo n).Applies [.base .uint] := by
  refine ⟨.ofIntervals ⟨⟨?_, by simp⟩, by simp, fun x _ hx => ?_⟩, by
    simp [uintsUpTo, isApplicableOver, Extent.resolve, Extent.scalarType]⟩
  · simp only [List.mem_singleton, forall_eq]
    refine ⟨by simp [Bound.normalized], by simp [Bound.normalized], ?_⟩
    rintro _ ⟨⟩ _ ⟨⟩
    rcases (Fin.zero_le n).lt_or_eq with hlt | heq
    · exact .inl hlt
    · exact .inr ⟨heq, rfl, rfl⟩
  · simp only [IntervalSet.mem_cons, IntervalSet.not_mem_nil, or_false] at hx
    exact ⟨hx.1, by simp [typeRange]⟩

lemma mem_uintsUpTo {n v : U64} :
    Mem (uintsUpTo n) ([Value.scalar .uint v].map Value.point) ↔ v ≤ n := by
  simp [uintsUpTo, Value.point, mem_ofIntervals, IntervalSet.mem_cons, IntervalSet.not_mem_nil,
    Interval.Mem, Bound.Holds, Point.Lt, Point.Gt]

lemma tt_applies : tt.Applies [.base .uint] := ⟨.tt, by simp [isApplicableOver]⟩

/-- What `[0, 3]` leaves out of everything reaches past the greatest `UInt`, but not only there. -/
theorem decidedExactly_uints : (uintsUpTo 3).Applies [.base .uint] ∧ tt.Applies [.base .uint] ∧
    DecidedExactly [.base .uint] (uintsUpTo 3) .tt := by
  have hp := uintsUpTo_applies 3
  have huint : Extent.scalarType (.base .uint) = some .uint := rfl
  have hvalues : ∀ v : U64, OpenValuesOf [.base .uint] [.scalar .uint v] := fun v =>
    .cons (.scalar huint v) .nil
  refine ⟨hp, tt_applies, (decidedExactly_iff (by simp) (by simp [Extent.WellFormed.base]) hp
    tt_applies).mpr ⟨fun _ => ?_, fun _ => ?_⟩⟩
  · exact ⟨_, hvalues 0, mem_uintsUpTo.mpr (by decide)⟩
  · exact ⟨_, hvalues 4, .tt, fun h => absurd (mem_uintsUpTo.mp h) (by decide)⟩

/-- `[0, u64::MAX]`, every value of the type: what `at_or_below` of the greatest builds. -/
def upToGreatest : Predicate :=
  .ofIntervals .uint [⟨some ⟨false, (0 : U64)⟩, some ⟨false, Fin.last _⟩⟩]

/-- `(u64::MAX, ∞)`, no value of the type: what `minus` leaves of everything. -/
def pastGreatest : Predicate := .ofIntervals .uint [⟨some ⟨true, (Fin.last _ : U64)⟩, none⟩]

lemma upToGreatest_applies : upToGreatest.Applies [.base .uint] := uintsUpTo_applies _

lemma pastGreatest_applies : pastGreatest.Applies [.base .uint] := by
  refine ⟨.ofIntervals ⟨⟨?_, by simp⟩, by simp, fun x _ hx => ?_⟩, by
    simp [pastGreatest, isApplicableOver, Extent.resolve, Extent.scalarType]⟩
  · simp only [List.mem_singleton, forall_eq]
    refine ⟨?_, by simp, by simp⟩
    rintro _ ⟨⟩
    rfl
  · simp only [IntervalSet.mem_cons, IntervalSet.not_mem_nil, or_false] at hx
    refine ⟨?_, by simp [typeRange]⟩
    rintro _ ⟨⟩ hlt
    exact absurd (Point.Gt.lt_of_lt (hx.1 _ rfl) hlt) (by simp)

/-- The point past the greatest `UInt`, which is no value. -/
def beyond : List KeyPoint := [.scalar .uint (.above (Fin.last _ : U64))]

lemma beyond_inLevels : InLevels [.base .uint] beyond := by
  refine inLevels_singleton.mpr (.scalar rfl ⟨rfl, ?_, by simp [typeRange]⟩)
  rintro _ ⟨⟩
  exact not_lt.mpr (Fin.zero_le (Fin.last _))

lemma exists_uint_of_openValuesOf (h : OpenValuesOf [.base .uint] path) :
    ∃ n : U64, path = [.scalar .uint n] := by
  cases h with
  | cons hv hnil =>
    cases hnil
    obtain ⟨n, rfl⟩ := hv.exists_scalar rfl
    exact ⟨n, rfl⟩

/-- **The greatest `UInt` is not seen as the end of its type.**  `[0, u64::MAX]` admits every
`UInt` and does not subsume `True`; `(u64::MAX, ∞)` admits none and is not answered empty. -/
theorem greatest_uint_not_whole :
    (upToGreatest.Applies [.base .uint] ∧ Predicate.tt.Applies [.base .uint] ∧
      subsumes upToGreatest .tt = some false ∧
      (∀ path, OpenValuesOf [.base .uint] path → upToGreatest.Admits path) ∧
      ¬DecidedExactly [.base .uint] upToGreatest .tt) ∧
    pastGreatest.Applies [.base .uint] ∧ pastGreatest.asBool ≠ some false ∧
      (∀ path, OpenValuesOf [.base .uint] path → ¬pastGreatest.Admits path) := by
  have hl : ∀ e ∈ [Extent.base .uint], e.WellFormed := by simp [Extent.WellFormed.base]
  have hall : ∀ path, OpenValuesOf [.base .uint] path → upToGreatest.Admits path := by
    intro path hpath
    rw [upToGreatest_applies.admits_iff_open hl hpath]
    obtain ⟨n, rfl⟩ := exists_uint_of_openValuesOf hpath
    exact mem_uintsUpTo.mpr (Fin.le_last n)
  have hnone : ∀ path, OpenValuesOf [.base .uint] path → ¬pastGreatest.Admits path := by
    intro path hpath
    rw [pastGreatest_applies.admits_iff_open hl hpath]
    obtain ⟨n, rfl⟩ := exists_uint_of_openValuesOf hpath
    rw [pastGreatest, List.map_singleton, Value.point, mem_ofIntervals]
    rintro ⟨_, hiv, hleft, _⟩
    obtain rfl := List.mem_singleton.mp hiv
    exact absurd (hleft _ rfl) (not_lt.mpr (Fin.le_last n))
  have hbeyond : ¬Mem upToGreatest beyond := by
    rw [upToGreatest, beyond, mem_ofIntervals]
    rintro ⟨_, hiv, _, hright⟩
    obtain rfl := List.mem_singleton.mp hiv
    exact hright _ rfl (le_refl _)
  -- the point past the greatest value is in `True` and not in `[0, u64::MAX]`
  have hsub : subsumes upToGreatest .tt = some false := by
    obtain ⟨b, hb, hiff⟩ := (atoms_of_levels (by simp) hl).subsumes_spec
      (upToGreatest_applies.over hl) (tt_applies.over hl)
    have hfalse : b ≠ true := fun hbt => hbeyond (hiff.mp hbt beyond beyond_inLevels .tt)
    rw [hb, Bool.eq_false_iff.mpr hfalse]
  refine ⟨⟨upToGreatest_applies, tt_applies, hsub, hall, fun hdec => ?_⟩,
    pastGreatest_applies, ?_, hnone⟩
  · obtain ⟨b, hb, hiff⟩ := hdec.containment
    obtain rfl := Option.mem_unique hsub hb
    exact absurd (hiff.mpr fun path hpath _ => hall path hpath) (by simp)
  · cases pastGreatest_applies.1 with
    | ofIntervals hs => exact asBool_ofIntervals_ne_false hs

end Predicate

end Cambra
