import Cambra.Tiling.Regions

/-!
# What the operations of a guard answer on cells

The exactness of the guard algebra read back on values.  A cell of a tile is a key of the level's
extent at every level and a field at every record (`CellOf Value.OfExtent`), and a guard covers it
as its predicates admit the paths that reach it (`Covers Admits`).  For guards that keep the
invariants of the type and pass `check_from` (`Guards`), `flatten_or`, `union` and `intersect`
return, what they return passes `check_from` again, and it covers the union or the meet of what the
arguments cover (`guards_exact`).

`check_from` does not check the invariants, and without them the operations panic
(`guards_need_invariants`).
-/

namespace Cambra

open List hiding Mem

namespace TileGuard

open Predicate (Mem Over Admits ValuesOf containsPath_decides onlyBool onlyBool_wellFormed)

/-! ## The invariants of the type -/

/-- The invariants the type keeps, whatever the tiling. -/
inductive WellFormed : TileGuard → Prop
  | scalar {pred : Predicate} (hs : LeafShape pred) (h : pred.WellFormed) :
      WellFormed (.scalar pred)
  | aggregation {pred : Predicate} (hs : LeafShape pred) (h : pred.WellFormed) :
      WellFormed (.aggregation pred)
  | domain {pred : Predicate} (h : pred.WellFormed) : WellFormed (.domain pred)
  | codomain {inner : TileGuard} (h : WellFormed inner) : WellFormed (.codomain inner)
  | record {fields : List (String × TileGuard)} (hasc : KeysAscend fields)
      (h : ∀ k g, (k, g) ∈ fields → WellFormed g) : WellFormed (.record fields)
  | ofOr {arms : List TileGuard} (hne : arms ≠ []) (h : ∀ arm ∈ arms, WellFormed arm) :
      WellFormed (.ofOr arms)

/-- What `check_from` asks of a leaf. -/
def leafChecks (pred : Predicate) (above : List Extent) : Option Bool := do
  let rows ← leafRows pred
  return rows.asBool.isSome || rows.isApplicableOver above

variable {above : List Extent} {pred : Predicate} {g : TileGuard} {t tiling : Tiling}
  {cell : List (Step Value)} {path : List Value}

lemma leafChecks_of_over (hs : LeafShape pred) (h : pred.Over (keyless :: above)) :
    leafChecks pred above = some true := by
  cases hs with
  | tt => simp [leafChecks, leafRows_tt, Predicate.asBool]
  | ff => simp [leafChecks, leafRows_ff, Predicate.asBool]
  | under =>
    cases h with
    | ofQualified _ he _ => simp [leafChecks, leafRows_under, he.isApplicableOver]

lemma over_of_leafChecks (hs : LeafShape pred) (hp : pred.WellFormed)
    (hl : ∀ e ∈ above, e.WellFormed) (h : leafChecks pred above = some true) :
    pred.Over (keyless :: above) := by
  cases hs with
  | tt => exact .tt
  | ff => exact .ff
  | under hnone =>
    cases hp with
    | ofQualified he _ =>
      have happ := he.over hl (by simpa [leafChecks, leafRows_under, hnone] using h)
      exact .ofQualified happ.levels_ne_nil happ .tt

lemma IsOver.wellFormed (hg : IsOver above t g) : g.WellFormed := by
  induction hg with
  | scalar hs h => exact .scalar hs h.wellFormed
  | aggregation hs h => exact .aggregation hs h.wellFormed
  | domain _ h => exact .domain h.wellFormed
  | codomain _ ih => exact .codomain ih
  | record hasc hkeys h ih =>
    refine .record hasc fun k g hg => ?_
    obtain ⟨t, ht⟩ := exists_lookup_of_keys_eq hkeys hg
    exact ih k g t hg ht
  | ofOr hne _ ih => exact .ofOr hne ih

lemma IsOver.checkFromUnder (hg : IsOver above t g) :
    TileGuard.checkFromUnder g t above = some true := by
  induction hg with
  | scalar hs h =>
    rw [checkFromUnder.eq_def]
    exact leafChecks_of_over hs h
  | aggregation hs h =>
    rw [checkFromUnder.eq_def]
    exact leafChecks_of_over hs h
  | domain hlevel h =>
    rw [checkFromUnder.eq_def]
    cases hlevel <;> simp [h.isApplicableOver]
  | codomain _ ih =>
    rw [checkFromUnder.eq_def]
    exact ih
  | record hasc hkeys h ih =>
    have hlen := congrArg List.length hkeys
    rw [length_map, length_map] at hlen
    rw [checkFromUnder.eq_def]
    simp only [if_pos hlen]
    refine allM_eq_true_iff.mpr fun kg hg => ?_
    obtain ⟨k, g⟩ := kg
    obtain ⟨t, ht⟩ := exists_lookup_of_keys_eq hkeys hg
    simpa only [ht] using ih k g t hg ht
  | ofOr _ _ ih =>
    rw [checkFromUnder.eq_def]
    exact allM_eq_true_iff.mpr ih

/-- **`check_from` accepts a well-formed guard only over its tiling.** -/
lemma WellFormed.isOver (hg : g.WellFormed) (ht : t.WellFormed) (hl : ∀ e ∈ above, e.WellFormed)
    (h : TileGuard.checkFromUnder g t above = some true) : IsOver above t g := by
  induction hg generalizing t above with
  | scalar hs hp =>
    rw [checkFromUnder.eq_def] at h
    cases t with
    | scalar => exact .scalar hs (over_of_leafChecks hs hp hl h)
    | _ => simp at h
  | aggregation hs hp =>
    rw [checkFromUnder.eq_def] at h
    cases t with
    | aggregation => exact .aggregation hs (over_of_leafChecks hs hp hl h)
    | _ => simp at h
  | domain hp =>
    rw [checkFromUnder.eq_def] at h
    cases t with
    | store own =>
      have hown : own.WellFormed := IsLevel.store.wellFormed ht
      exact .domain .store (hp.over (by simpa using ⟨hown, hl⟩) (Option.some.inj h))
    | dataFunction own values =>
      have hown : own.WellFormed := IsLevel.dataFunction.wellFormed ht
      exact .domain .dataFunction (hp.over (by simpa using ⟨hown, hl⟩) (Option.some.inj h))
    | _ => simp at h
  | codomain _ ih =>
    rw [checkFromUnder.eq_def] at h
    cases ht with
    | dataFunction hown hvalues =>
      exact .codomain (ih hvalues (by simpa using ⟨hown, hl⟩) h)
    | _ => simp at h
  | @record fields hasc _ ih =>
    rw [checkFromUnder.eq_def] at h
    cases ht with
    | @record tilings hascT hts =>
      by_cases hlen : fields.length = tilings.length
      · simp only [if_pos hlen] at h
        have hfield : ∀ k g, (k, g) ∈ fields → ∃ t, tilings.lookup k = some t ∧
            TileGuard.checkFromUnder g t above = some true := by
          intro k g hg
          have hkg := allM_eq_true_iff.mp h (k, g) hg
          cases ht : tilings.lookup k with
          | none => simp [ht] at hkg
          | some t => exact ⟨t, rfl, by simpa [ht] using hkg⟩
        have hkeys := hasc.keys_eq hascT (fun k g hg => (hfield k g hg).imp fun _ h => h.1) hlen
        refine .record hasc hkeys fun k g t hg ht => ?_
        obtain ⟨t', ht', hcheck⟩ := hfield k g hg
        obtain rfl := Option.mem_unique ht ht'
        exact ih k g hg (hts k t (mem_of_lookup_eq_some ht)) hl hcheck
      · simp [hlen] at h
    | _ => simp at h
  | @ofOr arms hne _ ih =>
    rw [checkFromUnder.eq_def] at h
    have harms : ∀ arm ∈ arms, TileGuard.checkFromUnder arm t above = some true :=
      allM_eq_true_iff.mp (by cases t <;> exact h)
    exact .ofOr hne fun arm harm => ih arm harm ht hl (harms arm harm)

/-- The guard keeps the invariants of the type and passes `check_from`. -/
def Guards (tiling : Tiling) (g : TileGuard) : Prop := g.WellFormed ∧ g.checkFrom tiling = some true

lemma guards_iff (ht : tiling.WellFormed) : Guards tiling g ↔ IsOver [] tiling g :=
  ⟨fun h => h.1.isOver ht (by simp) h.2, fun h => ⟨h.wellFormed, h.checkFromUnder⟩⟩

/-! ## Cells of values -/

/-- A cell of values, as a cell of points. -/
def cellPoints (cell : List (Step Value)) : List (Step KeyPoint) := cell.map (Step.map Value.point)

lemma cellOf_points (h : CellOf Value.OfExtent t cell) : CellOf InExtent t (cellPoints cell) := by
  induction h with
  | scalar => exact .scalar
  | aggregation => exact .aggregation
  | store hk => exact .store hk.point
  | dataFunction hk _ ih => exact .dataFunction hk.point ih
  | record ht _ ih => exact .record ht ih

/-- Reading a leaf's rows answers whether the leaf is named under the path. -/
lemma LeafShape.decides (hs : LeafShape pred) (hp : pred.Over (keyless :: above))
    (hpath : ValuesOf above path) :
    ∃ rows, TileGuard.leafRows pred = some rows ∧
      Decides (rows.containsPath path) (Mem pred (.unit :: path.map Value.point)) := by
  cases hs with
  | tt => exact ⟨.tt, leafRows_tt, .of_true (by rw [Predicate.containsPath_def]) (by simp)⟩
  | ff => exact ⟨.ff, leafRows_ff, .of_false (by rw [Predicate.containsPath_def]) (by simp)⟩
  | under =>
    cases hp with
    | ofQualified _ he _ =>
      exact ⟨_, leafRows_under, (containsPath_decides he hpath).congr
        (by simp [Predicate.mem_ofQualified])⟩

lemma admits_iff_of_decides {p : Predicate} {P : Prop} (h : Decides (p.containsPath path) P) :
    p.Admits path ↔ P := by
  obtain ⟨b, hb, hiff⟩ := h
  simpa [Admits, hb] using hiff

/-- **Covering a cell of values** is covering it as points. -/
lemma covers_admits_iff (hg : IsOver above t g) (hpath : ValuesOf above path)
    (hcell : CellOf Value.OfExtent t cell) :
    Covers Admits g path cell ↔ Covers Mem g (path.map Value.point) (cellPoints cell) := by
  induction hg generalizing path cell with
  | scalar hs hp | aggregation hs hp =>
    cases hcell
    obtain ⟨rows, hrows, hdec⟩ := hs.decides hp hpath
    simp [cellPoints, covers_scalar hs, covers_aggregation hs, ← admits_iff_of_decides hdec,
      covers_scalar_rows hrows, covers_aggregation_rows hrows]
  | domain hlevel hp =>
    obtain ⟨k, rest, rfl, hk⟩ := hlevel.exists_key hcell
    rw [cellPoints, map_cons, Step.map, covers_domain, covers_domain,
      admits_iff_of_decides (containsPath_decides hp (.cons hk hpath)), map_cons]
  | codomain _ ih =>
    obtain ⟨k, rest, rfl, hk, hrest⟩ := CellOf.exists_key hcell
    rw [cellPoints, map_cons, Step.map, covers_codomain, covers_codomain,
      ih (.cons hk hpath) hrest, map_cons, cellPoints]
  | record hasc hkeys _ ih =>
    obtain ⟨name, t, rest, rfl, ht, hrest⟩ := CellOf.exists_field hcell
    obtain ⟨g, hg⟩ := exists_lookup_of_cell hkeys ht
    rw [cellPoints, map_cons, Step.map, covers_record hg, covers_record hg,
      ih name g t (mem_of_lookup_eq_some hg) ht hpath hrest, cellPoints]
  | ofOr _ _ ih =>
    rw [covers_ofOr, covers_ofOr]
    exact exists_congr fun arm => and_congr_right fun harm => ih arm harm hpath hcell

/-! ## The algebra -/

/-- The computation returns a guard over the tiling that covers `S` of its cells. -/
def CoversExactly (tiling : Tiling) (o : Option TileGuard) (S : List (Step Value) → Prop) : Prop :=
  ∃ r, o = some r ∧ Guards tiling r ∧
    ∀ cell, CellOf Value.OfExtent tiling cell → (Covers Admits r [] cell ↔ S cell)

lemma Names.coversExactly (ht : tiling.WellFormed) {o : Option TileGuard}
    {P : List KeyPoint → List (Step KeyPoint) → Prop} (h : Names [] tiling o P)
    {S : List (Step Value) → Prop}
    (hS : ∀ cell, CellOf Value.OfExtent tiling cell → (P [] (cellPoints cell) ↔ S cell)) :
    CoversExactly tiling o S := by
  obtain ⟨r, hr, hover, hcov⟩ := h
  refine ⟨r, hr, (guards_iff ht).mpr hover, fun cell hcell => ?_⟩
  rw [covers_admits_iff hover .nil hcell, ← hS cell hcell]
  exact hcov _ _ .nil (cellOf_points hcell)

section Algebra

variable [ScalarOps]

/-- **The guard algebra names exact regions.**  Over a tiling, `flatten_or` of one or more guards,
`union` and `intersect` return, what they return passes `check_from`, and it covers the cells that
some argument covers, or both. -/
theorem guards_exact {tiling : Tiling} (ht : tiling.WellFormed) :
    (∀ arms : List TileGuard, arms ≠ [] → (∀ arm ∈ arms, Guards tiling arm) →
      CoversExactly tiling (flattenOr arms) (fun cell => ∃ arm ∈ arms, Covers Admits arm [] cell)) ∧
    ∀ a b : TileGuard, Guards tiling a → Guards tiling b → CoversExactly tiling (union a b)
        (fun cell => Covers Admits a [] cell ∨ Covers Admits b [] cell) ∧
      CoversExactly tiling (intersect a b)
        (fun cell => Covers Admits a [] cell ∧ Covers Admits b [] cell) := by
  have hnormal := (normal_of_wellFormed ht).here
  have hread : ∀ {g}, Guards tiling g → ∀ cell, CellOf Value.OfExtent tiling cell →
      (Covers Mem g [] (cellPoints cell) ↔ Covers Admits g [] cell) := fun hg cell hcell =>
    (covers_admits_iff ((guards_iff ht).mp hg) .nil hcell).symm
  refine ⟨fun arms hne harms => ?_, fun a b ha hb => ⟨?_, ?_⟩⟩
  · refine (hnormal.flattenOr (by simp) hne fun arm harm =>
      (guards_iff ht).mp (harms arm harm)).coversExactly ht fun cell hcell => ?_
    exact exists_congr fun arm => and_congr_right fun harm => hread (harms arm harm) cell hcell
  · exact (hnormal.union (by simp) ((guards_iff ht).mp ha) ((guards_iff ht).mp hb)).coversExactly ht
      fun cell hcell => or_congr (hread ha cell hcell) (hread hb cell hcell)
  · exact (intersectAt_names ht (by simp) ((guards_iff ht).mp ha)
      ((guards_iff ht).mp hb) 0).coversExactly ht
      fun cell hcell => and_congr (hread ha cell hcell) (hread hb cell hcell)

end Algebra

/-- Pairs under a Boolean key. -/
def pairRows : Tiling := .dataFunction (.base .bool) (.record [("0", .scalar), ("1", .scalar)])

/-- The first field of some of the rows, and the second of none. -/
def firstField (enclosing : Predicate) : TileGuard :=
  .codomain (.record [("0", .scalar (.ofQualified enclosing .tt)), ("1", .scalar .ff)])

lemma keysAscend_pair {β : Type} (x y : β) : KeysAscend [("0", x), ("1", y)] := by
  have hlt : "0" < "1" := by
    rw [String.lt_iff_toList_lt]
    decide
  simpa only [KeysAscend, map_cons, map_nil, pairwise_pair] using hlt

lemma pairRows_wellFormed : pairRows.WellFormed := by
  refine .dataFunction .base (.record (keysAscend_pair _ _) fun k t h => ?_)
  simp only [List.mem_cons, Prod.mk.injEq, List.not_mem_nil, or_false] at h
  rcases h with ⟨_, rfl⟩ | ⟨_, rfl⟩ <;> exact .scalar

lemma firstField_checkFrom {enclosing : Predicate}
    (h : (enclosing.asBool.isSome || enclosing.isApplicableOver [.base .bool]) = true) :
    (firstField enclosing).checkFrom pairRows = some true := by
  have hsecond : List.lookup "1" [("0", Tiling.scalar), ("1", .scalar)] = some .scalar := rfl
  simp [checkFrom, checkFromUnder, firstField, pairRows, leafRows_under, leafRows_ff,
    Predicate.asBool, hsecond, h]

lemma firstField_guards : Guards pairRows (firstField (onlyBool true)) := by
  have happ : (onlyBool true).isApplicableOver [.base .bool] = true := by
    simp [Predicate.isApplicableOver, onlyBool, Extent.resolve, Extent.scalarType]
  refine ⟨.codomain (.record (keysAscend_pair _ _) fun k g h => ?_),
    firstField_checkFrom (by simp [happ])⟩
  simp only [List.mem_cons, Prod.mk.injEq, List.not_mem_nil, or_false] at h
  rcases h with ⟨_, rfl⟩ | ⟨_, rfl⟩
  · exact .scalar (.under (by simp)) (.ofQualified (onlyBool_wellFormed true) .tt)
  · exact .scalar .ff .ff

lemma domain_guards : Guards pairRows (.domain (onlyBool false)) := by
  refine ⟨.domain (onlyBool_wellFormed false), ?_⟩
  simp [checkFrom, checkFromUnder, pairRows, Predicate.isApplicableOver, onlyBool, Extent.resolve,
    Extent.scalarType]

theorem guards_exact_pairs :
    Guards pairRows (firstField (onlyBool true)) ∧ Guards pairRows (.domain (onlyBool false)) ∧
    CoversExactly pairRows (flattenOr [firstField (onlyBool true), .domain (onlyBool false)])
      (fun cell => ∃ arm ∈ [firstField (onlyBool true), .domain (onlyBool false)],
        Covers Admits arm [] cell) ∧
    CoversExactly pairRows (intersect (firstField (onlyBool true)) (.domain (onlyBool false)))
      (fun cell => Covers Admits (firstField (onlyBool true)) [] cell ∧
        Covers Admits (.domain (onlyBool false)) [] cell) := by
  obtain ⟨hflatten, hpair⟩ := guards_exact pairRows_wellFormed
  refine ⟨firstField_guards, domain_guards, hflatten _ (by simp) ?_,
    (hpair _ _ firstField_guards domain_guards).2⟩
  simpa using ⟨firstField_guards, domain_guards⟩

/-! ## Without the invariants -/

/-- **The invariants are needed.**  No arms, or an `Or` with none, make the operations panic; and so
does a leaf under a qualification that is not one `qualified` builds: `check_from` passes it for
naming every path, without asking that it be over the levels, and it meets no other. -/
theorem guards_need_invariants : flattenOr [] = none ∧
    (checkFrom (.ofOr []) pairRows = some true ∧ intersect (.ofOr []) (.domain .tt) = none) ∧
    (firstField (.ofRecord [])).checkFrom pairRows = some true ∧
      (firstField (onlyBool true)).checkFrom pairRows = some true ∧
      intersect (firstField (.ofRecord [])) (firstField (onlyBool true)) = none := by
  refine ⟨?_, ⟨?_, ?_⟩, firstField_checkFrom ?_, firstField_guards.2, ?_⟩
  · rw [flattenOr_def]
    rfl
  · simp [checkFrom, checkFromUnder]
  · rw [intersect, intersectAt.eq_def]
    exact flattenOr_def []
  · simp [Predicate.asBool]
  have hrows : Predicate.intersect (.ofRecord []) (onlyBool true) = none := by
    rw [Predicate.intersect_def]
    rfl
  have hleaf : Predicate.intersect (.ofQualified (.ofRecord []) .tt)
      (.ofQualified (onlyBool true) .tt) = none := by
    rw [Predicate.intersect_def]
    simp [Componentwise.of, Predicate.splitQualification, hrows]
  rw [intersect, firstField, firstField, intersectAt.eq_def]
  simp [intersectAt, hleaf, isFunction, isEmpty, isUniversal, Predicate.asBool]

end TileGuard

end Cambra
