import Cambra.Tiling.Guard

/-!
# The cells a guard covers

A cell of a tile is reached by a key at each level and a field at each record (`Step`).  A guard
over a tiling covers some of its cells (`Covers`): those under a key a `domain` names, those a
part of the right field covers, and a leaf under the paths its predicate names.

`IsOver` is the source's `check_from` together with the invariants of the type: predicates are over
the levels they stand under, an `Or` has arms, and a leaf is named as its one cell, whole or not at
all (`LeafShape`).  A keyless leaf is then a level with one key: what its predicate says of an
enclosing path, it says of that key under the path.

## Main results

* `covers_of_isUniversal`, `not_covers_of_isEmpty`: the two tests are sound.
* `chains_spec`: chains cover together what the guard does.
* `exists_covers_wrapGuard`: what a guard covers under codomain steps.
* `wholeRows_spec`: under the rows `whole_rows` answers, everything is covered.
-/

namespace Cambra

open List hiding Mem
open Option

/-! ## Cells -/

/-- One step into a tile: to what a key holds, or to a field. -/
inductive Step (κ : Type) where
  | key (k : κ)
  | field (name : String)

def Step.map {κ κ' : Type} (f : κ → κ') : Step κ → Step κ'
  | .key k => .key (f k)
  | .field name => .field name

/-- The cells of a tiling, its keys being those `of` says are of an extent. -/
inductive CellOf {κ : Type} (of : Extent → κ → Prop) : Tiling → List (Step κ) → Prop
  | scalar : CellOf of .scalar []
  | aggregation : CellOf of .aggregation []
  | store {own : Extent} {k : κ} (hk : of own k) : CellOf of (.store own) [.key k]
  | dataFunction {own : Extent} {values : Tiling} {k : κ} {rest : List (Step κ)} (hk : of own k)
      (hrest : CellOf of values rest) : CellOf of (.dataFunction own values) (.key k :: rest)
  | record {tilings : List (String × Tiling)} {name : String} {tiling : Tiling}
      {rest : List (Step κ)} (ht : tilings.lookup name = some tiling)
      (hrest : CellOf of tiling rest) : CellOf of (.record tilings) (.field name :: rest)

/-- The extents of a tiling list their keys once and in order, and so do its records. -/
inductive Tiling.WellFormed : Tiling → Prop
  | scalar : WellFormed .scalar
  | aggregation : WellFormed .aggregation
  | store {own : Extent} (h : own.WellFormed) : WellFormed (.store own)
  | dataFunction {own : Extent} {values : Tiling} (hown : own.WellFormed)
      (hvalues : WellFormed values) : WellFormed (.dataFunction own values)
  | record {tilings : List (String × Tiling)} (hasc : KeysAscend tilings)
      (h : ∀ k t, (k, t) ∈ tilings → WellFormed t) : WellFormed (.record tilings)

namespace TileGuard

/-- The guard covers the cell, under the path of keys above: `mem` says which paths a predicate
admits. -/
inductive Covers {κ : Type} (mem : Predicate → List κ → Prop) :
    TileGuard → List κ → List (Step κ) → Prop
  | scalar {pred rows : Predicate} {path : List κ} (hrows : leafRows pred = some rows)
      (h : mem rows path) : Covers mem (.scalar pred) path []
  | aggregation {pred rows : Predicate} {path : List κ} (hrows : leafRows pred = some rows)
      (h : mem rows path) : Covers mem (.aggregation pred) path []
  | domain {pred : Predicate} {path : List κ} {k : κ} {rest : List (Step κ)}
      (h : mem pred (k :: path)) : Covers mem (.domain pred) path (.key k :: rest)
  | codomain {inner : TileGuard} {path : List κ} {k : κ} {rest : List (Step κ)}
      (h : Covers mem inner (k :: path) rest) : Covers mem (.codomain inner) path (.key k :: rest)
  | record {fields : List (String × TileGuard)} {name : String} {g : TileGuard} {path : List κ}
      {rest : List (Step κ)} (hg : fields.lookup name = some g) (h : Covers mem g path rest) :
      Covers mem (.record fields) path (.field name :: rest)
  | ofOr {arms : List TileGuard} {arm : TileGuard} {path : List κ} {cell : List (Step κ)}
      (harm : arm ∈ arms) (h : Covers mem arm path cell) : Covers mem (.ofOr arms) path cell

variable {arms : List TileGuard} {fields : List (String × TileGuard)} {g : TileGuard}
  {p : Predicate} {own : Extent} {t : Tiling} {κ : Type} {path : List KeyPoint}
  {tilings : List (String × Tiling)} {above : List Extent} {cell : List (Step KeyPoint)} {n : ℕ}
  {name : String} {of : Extent → κ → Prop} {values : Tiling} {above' : List Extent}

section Covers

variable {mem : Predicate → List κ → Prop} {path : List κ} {pred : Predicate}
  {rows : Predicate} {k : κ} {rest : List (Step κ)}

lemma covers_scalar_rows (hrows : leafRows pred = some rows) :
    Covers mem (.scalar pred) path [] ↔ mem rows path := by
  refine ⟨fun h => ?_, .scalar hrows⟩
  cases h with
  | scalar hrows' h =>
    obtain rfl := mem_unique hrows hrows'
    exact h

lemma covers_aggregation_rows (hrows : leafRows pred = some rows) :
    Covers mem (.aggregation pred) path [] ↔ mem rows path := by
  refine ⟨fun h => ?_, .aggregation hrows⟩
  cases h with
  | aggregation hrows' h =>
    obtain rfl := mem_unique hrows hrows'
    exact h

lemma covers_domain : Covers mem (.domain pred) path (.key k :: rest) ↔ mem pred (k :: path) :=
  ⟨fun h => (by cases h; assumption), .domain⟩

lemma covers_codomain {inner : TileGuard} :
    Covers mem (.codomain inner) path (.key k :: rest) ↔ Covers mem inner (k :: path) rest :=
  ⟨fun h => (by cases h; assumption), .codomain⟩

lemma covers_record (hg : fields.lookup name = some g) :
    Covers mem (.record fields) path (.field name :: rest) ↔ Covers mem g path rest := by
  refine ⟨fun h => ?_, .record hg⟩
  cases h with
  | record hg' h =>
    obtain rfl := mem_unique hg hg'
    exact h

lemma covers_ofOr {cell : List (Step κ)} :
    Covers mem (.ofOr arms) path cell ↔ ∃ arm ∈ arms, Covers mem arm path cell :=
  ⟨fun h => (by cases h with | ofOr harm h => exact ⟨_, harm, h⟩), fun ⟨_, harm, h⟩ => .ofOr harm h⟩

end Covers

open Predicate (Mem)

/-! ## Guards over a tiling -/

/-- The extent of the one key a keyless leaf is read as. -/
abbrev keyless : Extent := .base .unit

/-- A keyless leaf's predicate: its one cell, under every path, under none or under some. -/
inductive LeafShape : Predicate → Prop
  | tt : LeafShape .tt
  | ff : LeafShape .ff
  | under {enclosing : Predicate} (h : enclosing.asBool = none) :
      LeafShape (.ofQualified enclosing .tt)

lemma leafRows_tt : leafRows .tt = some .tt := by
  simp [leafRows, Predicate.splitQualification, Predicate.isFalse, Predicate.isTrue,
    Predicate.asBool]

lemma leafRows_ff : leafRows .ff = some .ff := by
  simp [leafRows, Predicate.splitQualification, Predicate.isFalse, Predicate.asBool]

lemma leafRows_under {enclosing : Predicate} :
    leafRows (.ofQualified enclosing .tt) = some enclosing := by
  simp [leafRows, Predicate.splitQualification, Predicate.isFalse, Predicate.isTrue,
    Predicate.asBool]

/-- A leaf's rows are the paths its predicate admits its one key under. -/
lemma LeafShape.leafRows (h : LeafShape p) :
    ∃ rows, leafRows p = some rows ∧ ∀ path, Mem rows path ↔ Mem p (.unit :: path) := by
  cases h with
  | tt => exact ⟨.tt, leafRows_tt, by simp⟩
  | ff => exact ⟨.ff, leafRows_ff, by simp⟩
  | under => exact ⟨_, leafRows_under, by simp [Predicate.mem_ofQualified]⟩

/-- The tiling is a level with keys of the extent. -/
inductive IsLevel : Tiling → Extent → Prop
  | store {own : Extent} : IsLevel (.store own) own
  | dataFunction {own : Extent} {values : Tiling} : IsLevel (.dataFunction own values) own

lemma IsLevel.wellFormed (h : IsLevel t own) (ht : t.WellFormed) : own.WellFormed := by
  cases h <;> cases ht <;> assumption

lemma IsLevel.eq {own' : Extent} (h : IsLevel t own) (h' : IsLevel t own') : own = own' := by
  cases h <;> cases h' <;> rfl

lemma IsLevel.exists_key (h : IsLevel t own) {cell : List (Step κ)} (hcell : CellOf of t cell) :
    ∃ k rest, cell = .key k :: rest ∧ of own k := by
  cases h <;> cases hcell <;> exact ⟨_, _, rfl, ‹_›⟩

/-- The guard is one over the tiling under the levels `above`, and keeps the invariants of the
type. -/
inductive IsOver : List Extent → Tiling → TileGuard → Prop
  | scalar {above : List Extent} {pred : Predicate} (hs : LeafShape pred)
      (h : pred.Over (keyless :: above)) : IsOver above .scalar (.scalar pred)
  | aggregation {above : List Extent} {pred : Predicate} (hs : LeafShape pred)
      (h : pred.Over (keyless :: above)) : IsOver above .aggregation (.aggregation pred)
  | domain {above : List Extent} {t : Tiling} {own : Extent} {pred : Predicate}
      (hlevel : IsLevel t own) (h : pred.Over (own :: above)) : IsOver above t (.domain pred)
  | codomain {above : List Extent} {own : Extent} {values : Tiling} {inner : TileGuard}
      (h : IsOver (own :: above) values inner) :
      IsOver above (.dataFunction own values) (.codomain inner)
  | record {above : List Extent} {tilings : List (String × Tiling)}
      {fields : List (String × TileGuard)} (hasc : KeysAscend fields)
      (hkeys : fields.map (·.1) = tilings.map (·.1))
      (h : ∀ k g t, (k, g) ∈ fields → tilings.lookup k = some t → IsOver above t g) :
      IsOver above (.record tilings) (.record fields)
  | ofOr {above : List Extent} {tiling : Tiling} {arms : List TileGuard} (hne : arms ≠ [])
      (h : ∀ arm ∈ arms, IsOver above tiling arm) : IsOver above tiling (.ofOr arms)

lemma covers_scalar (hs : LeafShape p) :
    Covers Mem (.scalar p) path [] ↔ Mem p (.unit :: path) := by
  obtain ⟨rows, hrows, hmem⟩ := hs.leafRows
  rw [← hmem, covers_scalar_rows hrows]

lemma covers_aggregation (hs : LeafShape p) :
    Covers Mem (.aggregation p) path [] ↔ Mem p (.unit :: path) := by
  obtain ⟨rows, hrows, hmem⟩ := hs.leafRows
  rw [← hmem, covers_aggregation_rows hrows]

/-- The tiling of a leaf, and how a predicate becomes a guard over it. -/
inductive IsLeaf : Tiling → (Predicate → TileGuard) → Prop
  | scalar : IsLeaf .scalar .scalar
  | aggregation : IsLeaf .aggregation .aggregation

lemma IsLeaf.isOver {f : Predicate → TileGuard} (h : IsLeaf t f) (hs : LeafShape p)
    (hp : p.Over (keyless :: above)) : IsOver above t (f p) := by
  cases h with
  | scalar => exact .scalar hs hp
  | aggregation => exact .aggregation hs hp

lemma IsLeaf.covers_iff {f : Predicate → TileGuard} (h : IsLeaf t f) (hs : LeafShape p)
    (hcell : CellOf InExtent t cell) : Covers Mem (f p) path cell ↔ Mem p (.unit :: path) := by
  cases h with
  | scalar =>
    cases hcell
    exact covers_scalar hs
  | aggregation =>
    cases hcell
    exact covers_aggregation hs

/-! ### Cells by the shape of the tiling -/

lemma CellOf.exists_key {cell : List (Step κ)} (h : CellOf of (.dataFunction own values) cell) :
    ∃ k rest, cell = .key k :: rest ∧ of own k ∧ CellOf of values rest := by
  cases h with
  | dataFunction hk hrest => exact ⟨_, _, rfl, hk, hrest⟩

lemma CellOf.exists_field {cell : List (Step κ)} (h : CellOf of (.record tilings) cell) :
    ∃ name t rest, cell = .field name :: rest ∧ tilings.lookup name = some t ∧
      CellOf of t rest := by
  cases h with
  | record ht hrest => exact ⟨_, _, _, rfl, ht, hrest⟩

/-- What is said of every field's cells is said of the record's. -/
lemma exists_lookup_of_cell (hkeys : fields.map (·.1) = tilings.map (·.1))
    (ht : tilings.lookup name = some t) : ∃ g, fields.lookup name = some g :=
  exists_lookup_of_keys_eq hkeys.symm (mem_of_lookup_eq_some ht)

/-! ## Everything and nothing -/

lemma isUniversal_record :
    (record fields).isUniversal = true ↔ ∀ k g, (k, g) ∈ fields → g.isUniversal = true := by
  simp [isUniversal]

lemma isUniversal_ofOr : (ofOr arms).isUniversal = true ↔ ∃ arm ∈ arms, arm.isUniversal = true := by
  simp [isUniversal]

lemma isEmpty_record :
    (record fields).isEmpty = true ↔ ∀ k g, (k, g) ∈ fields → g.isEmpty = true := by simp [isEmpty]

lemma isEmpty_ofOr : (ofOr arms).isEmpty = true ↔ ∀ arm ∈ arms, arm.isEmpty = true := by
  simp [isEmpty]

/-- **A guard called universal covers every cell.** -/
theorem covers_of_isUniversal (hg : IsOver above t g) (h : g.isUniversal = true)
    (hpath : InLevels above path) (hcell : CellOf InExtent t cell) : Covers Mem g path cell := by
  induction hg generalizing path cell with
  | scalar hs hp | aggregation hs hp =>
    cases hcell
    simp only [covers_scalar hs, covers_aggregation hs]
    exact Predicate.mem_of_isTrue hp (Predicate.isTrue_iff.mpr (by simpa [isUniversal] using h))
      (.cons .unit hpath)
  | domain hlevel hp =>
    obtain ⟨k, rest, rfl, hk⟩ := hlevel.exists_key hcell
    exact .domain (Predicate.mem_of_isTrue hp
      (Predicate.isTrue_iff.mpr (by simpa [isUniversal] using h)) (.cons hk hpath))
  | codomain _ ih =>
    obtain ⟨k, rest, rfl, hk, hrest⟩ := CellOf.exists_key hcell
    exact .codomain (ih (by simpa [isUniversal] using h) (.cons hk hpath) hrest)
  | record _ hkeys _ ih =>
    obtain ⟨name, t, rest, rfl, ht, hrest⟩ := CellOf.exists_field hcell
    obtain ⟨g, hg⟩ := exists_lookup_of_cell hkeys ht
    have hmem := mem_of_lookup_eq_some hg
    exact .record hg (ih name g t hmem ht (isUniversal_record.mp h name g hmem) hpath hrest)
  | ofOr _ _ ih =>
    obtain ⟨arm, harm, huniv⟩ := isUniversal_ofOr.mp h
    exact .ofOr harm (ih arm harm huniv hpath hcell)

/-- **A guard called empty covers none.** -/
theorem not_covers_of_isEmpty (hg : IsOver above t g) (h : g.isEmpty = true) :
    ¬Covers Mem g path cell := by
  intro hcov
  induction hg generalizing path cell with
  | scalar hs hp =>
    cases hcov with
    | scalar hrows hmem =>
      exact Predicate.not_mem_of_isFalse hp (by simpa [isEmpty] using h) _
        ((covers_scalar hs).mp (.scalar hrows hmem))
  | aggregation hs hp =>
    cases hcov with
    | aggregation hrows hmem =>
      exact Predicate.not_mem_of_isFalse hp (by simpa [isEmpty] using h) _
        ((covers_aggregation hs).mp (.aggregation hrows hmem))
  | domain _ hp =>
    cases hcov with
    | domain hmem => exact Predicate.not_mem_of_isFalse hp (by simpa [isEmpty] using h) _ hmem
  | codomain _ ih =>
    cases hcov with
    | codomain hcov => exact ih (by simpa [isEmpty] using h) hcov
  | record _ hkeys _ ih =>
    cases hcov with
    | record hg hcov =>
      have hmem := mem_of_lookup_eq_some hg
      obtain ⟨t, ht⟩ := exists_lookup_of_keys_eq hkeys hmem
      exact ih _ _ t hmem ht (isEmpty_record.mp h _ _ hmem) hcov
  | ofOr _ _ ih =>
    cases hcov with
    | ofOr harm hcov => exact ih _ harm (isEmpty_ofOr.mp h _ harm) hcov

lemma dropEmpty_spec (hne : arms ≠ []) (harms : ∀ g ∈ arms, IsOver above t g) :
    dropEmpty arms ≠ [] ∧ (∀ g ∈ dropEmpty arms, g ∈ arms) ∧
      ∀ path cell, (∃ g ∈ dropEmpty arms, Covers Mem g path cell) ↔
        ∃ g ∈ arms, Covers Mem g path cell := by
  rw [dropEmpty]
  split_ifs with hany
  · obtain ⟨g, hg, hsome⟩ := any_eq_true.mp hany
    refine ⟨ne_nil_of_mem (mem_filter.mpr ⟨hg, hsome⟩),
      fun g hg => (mem_filter.mp hg).1, fun path cell => exists_congr fun g => ?_⟩
    rw [mem_filter, and_assoc]
    refine and_congr_right fun hg => and_iff_right_of_imp fun h => ?_
    by_contra hempty
    exact not_covers_of_isEmpty (harms g hg) (by simpa using hempty) h
  · have hempty : ∀ g ∈ arms, g.isEmpty = true := by simpa using hany
    have hnone : ∀ g ∈ arms, ∀ path cell, ¬Covers Mem g path cell := fun g hg path cell =>
      not_covers_of_isEmpty (harms g hg) (hempty g hg)
    exact ⟨by simpa using hne, fun g hg => mem_of_mem_take hg, fun path cell =>
      iff_of_false (fun ⟨g, hg, h⟩ => hnone g (mem_of_mem_take hg) path cell h)
        fun ⟨g, hg, h⟩ => hnone g hg path cell h⟩

/-! ## Chains -/

/-- Chains are guards over the tiling, at least one, and cover together what the guard does. -/
theorem chains_spec (hg : IsOver above t g) : g.chains ≠ [] ∧ (∀ c ∈ g.chains, IsOver above t c) ∧
      ∀ path cell, Covers Mem g path cell ↔ ∃ c ∈ g.chains, Covers Mem c path cell := by
  induction hg with
  | scalar hs h => simp [chains, IsOver.scalar hs h]
  | aggregation hs h => simp [chains, IsOver.aggregation hs h]
  | domain hlevel h => simp [chains, IsOver.domain hlevel h]
  | record hasc hkeys h _ => simp [chains, IsOver.record hasc hkeys h]
  | codomain _ ih =>
    obtain ⟨hne, hover, hcov⟩ := ih
    rw [chains]
    refine ⟨by simpa using hne, ?_, fun path cell => ?_⟩
    · intro _ hmem
      obtain ⟨c, hc, rfl⟩ := mem_map.mp hmem
      exact .codomain (hover c hc)
    · constructor
      · intro h
        cases h with
        | codomain h =>
          obtain ⟨c, hc, h⟩ := (hcov _ _).mp h
          exact ⟨.codomain c, mem_map.mpr ⟨c, hc, rfl⟩, .codomain h⟩
      · rintro ⟨_, hmem, h⟩
        obtain ⟨c, hc, rfl⟩ := mem_map.mp hmem
        cases h with
        | codomain h => exact .codomain ((hcov _ _).mpr ⟨c, hc, h⟩)
  | @ofOr above t arms hne _ ih =>
    rw [chains]
    have hmem : ∀ c, c ∈ (arms.map fun arm => chains arm).flatten ↔
        ∃ arm ∈ arms, c ∈ chains arm := by simp
    refine ⟨fun hnil => ?_, fun c hc => ?_, fun path cell => ?_⟩
    · obtain ⟨arm, harm⟩ := exists_mem_of_ne_nil arms hne
      obtain ⟨c, hc⟩ := exists_mem_of_ne_nil _ (ih arm harm).1
      have := (hmem c).mpr ⟨arm, harm, hc⟩
      simp [hnil] at this
    · obtain ⟨arm, harm, hc⟩ := (hmem c).mp hc
      exact (ih arm harm).2.1 c hc
    have hcov := fun arm harm => (ih arm harm).2.2 path cell
    simp only [covers_ofOr, hmem]
    grind

/-! ### Codomain steps -/

/-- The tiling and the levels `n` collection levels further in. -/
inductive Beneath : List Extent → Tiling → ℕ → List Extent → Tiling → Prop
  | zero {above : List Extent} {t : Tiling} : Beneath above t 0 above t
  | succ {above above' : List Extent} {t values : Tiling} {n : ℕ} {own : Extent}
      (h : Beneath above t n above' (.dataFunction own values)) :
      Beneath above t (n + 1) (own :: above') values

lemma Beneath.eq {above₁ above₂ : List Extent} {t₁ t₂ : Tiling} (h₁ : Beneath above t n above₁ t₁)
    (h₂ : Beneath above t n above₂ t₂) : above₁ = above₂ ∧ t₁ = t₂ := by
  induction h₁ generalizing above₂ t₂ with
  | zero =>
    cases h₂
    exact ⟨rfl, rfl⟩
  | succ _ ih =>
    cases h₂ with
    | succ h₂ =>
      obtain ⟨rfl, heq⟩ := ih h₂
      cases heq
      exact ⟨rfl, rfl⟩

lemma wrapGuard_succ (n : ℕ) (g : TileGuard) : wrapGuard (n + 1) g = wrapGuard n (.codomain g) := by
  induction n with
  | zero => rfl
  | succ n ih => rw [wrapGuard, ih, wrapGuard]

lemma wrapGuard_chainEnd (g : TileGuard) : wrapGuard g.chainEnd.1 g.chainEnd.2 = g := by
  induction g using chainEnd.induct with
  | case1 inner ih => rw [chainEnd, wrapGuard, ih]
  | case2 leaf h => cases leaf <;> first | rfl | exact absurd rfl (h _)

lemma chainEnd_wrapGuard {leaf : TileGuard} (h : leaf.chainEnd = (0, leaf)) (n : ℕ) :
    (wrapGuard n leaf).chainEnd = (n, leaf) := by
  induction n with
  | zero => exact h
  | succ n ih => rw [wrapGuard, chainEnd, ih]

lemma chainEnd_chainEnd (g : TileGuard) : g.chainEnd.2.chainEnd = (0, g.chainEnd.2) := by
  induction g using chainEnd.induct with
  | case1 inner ih => rw [chainEnd, ih]
  | case2 leaf h => cases leaf <;> first | rfl | exact absurd rfl (h _)

lemma isOver_wrapGuard : IsOver above t (wrapGuard n g) ↔
      ∃ above' t', Beneath above t n above' t' ∧ IsOver above' t' g := by
  induction n generalizing g with
  | zero =>
    refine ⟨fun h => ⟨above, t, .zero, h⟩, ?_⟩
    rintro ⟨_, _, hb, h⟩
    cases hb
    exact h
  | succ n ih =>
    rw [wrapGuard_succ, ih]
    constructor
    · rintro ⟨above', t', hb, h⟩
      cases h with
      | codomain h => exact ⟨_, _, .succ hb, h⟩
    · rintro ⟨_, _, hb, h⟩
      cases hb with
      | succ hb => exact ⟨_, _, hb, .codomain h⟩

lemma eq_wrapGuard_of_domainAt {arm : TileGuard} (h : domainAt arm = some (n, p)) :
    arm = wrapGuard n (.domain p) := by
  induction arm using domainAt.induct generalizing n with
  | case1 pred =>
    simp only [domainAt, Option.some.injEq, Prod.mk.injEq] at h
    obtain ⟨rfl, rfl⟩ := h
    rfl
  | case2 inner ih =>
    simp only [domainAt, map_eq_some_iff] at h
    obtain ⟨⟨m, q⟩, hinner, heq⟩ := h
    simp only [Prod.mk.injEq] at heq
    obtain ⟨rfl, rfl⟩ := heq
    rw [wrapGuard, ← ih hinner]
  | case3 g hd hc => cases g <;> simp_all [domainAt]

lemma domainAt_wrapGuard (n : ℕ) (p : Predicate) :
    domainAt (wrapGuard n (.domain p)) = some (n, p) := by
  induction n with
  | zero => rfl
  | succ n ih => rw [wrapGuard, domainAt, ih]; rfl

lemma not_covers_wrapGuard_ff : ¬Covers Mem (wrapGuard n (.domain .ff)) path cell := by
  intro h
  induction n generalizing path cell with
  | zero =>
    cases h with
    | domain h => exact Predicate.mem_ff.mp h
  | succ n ih =>
    cases h with
    | codomain h => exact ih h

lemma withDomain_wrapGuard (n : ℕ) (p q : Predicate) :
    withDomain (wrapGuard n (.domain p)) q = some (wrapGuard n (.domain q)) := by
  induction n with
  | zero => rfl
  | succ n ih => rw [wrapGuard, withDomain, ih]; rfl

/-- What stands at a level is an arm's predicate, or nothing. -/
lemma wholeAbove_spec (depths : List (ℕ × Predicate)) (deepest : ℕ) :
    (wholeAbove depths deepest).length = deepest + 1 ∧
      ∀ (e : ℕ) p, (wholeAbove depths deepest)[e]? = some p → p = .ff ∨ (e, p) ∈ depths := by
  let Stands : List Predicate → Prop := fun above =>
    ∀ (e : ℕ) p, above[e]? = some p → p = .ff ∨ (e, p) ∈ depths
  have hfold : ∀ (above : List Predicate) (depths' : List (ℕ × Predicate)), depths' ⊆ depths →
      Stands above →
      (depths'.foldl (fun above at_ => above.set at_.1 at_.2) above).length = above.length ∧
        Stands (depths'.foldl (fun above at_ => above.set at_.1 at_.2) above) := by
    intro above depths' hsub habove
    induction depths' generalizing above with
    | nil => exact ⟨rfl, habove⟩
    | cons at_ depths' ih =>
      have hset : Stands (above.set at_.1 at_.2) := by
        intro e p he
        by_cases hkey : at_.1 = e
        · subst hkey
          obtain rfl : at_.2 = p := by by_cases hlt : at_.1 < above.length <;> simp_all
          exact .inr (hsub (by simp))
        · rw [getElem?_set_ne hkey] at he
          exact habove e p he
      simpa using ih (above.set at_.1 at_.2) (fun x hx => hsub (by simp [hx])) hset
  have hinit : Stands (List.replicate (deepest + 1) .ff) := fun e p he =>
    .inl (eq_of_mem_replicate (mem_of_getElem? he))
  rw [wholeAbove]
  simpa using hfold (List.replicate (deepest + 1) .ff) depths (List.Subset.refl _) hinit

/-- What a guard covers under codomain steps is what it covers where the steps lead. -/
lemma exists_covers_wrapGuard {t' : Tiling} (hb : Beneath above t n above' t')
    (hpath : InLevels above path) (hcell : CellOf InExtent t cell) :
    ∃ path' rest, InLevels above' path' ∧ CellOf InExtent t' rest ∧
      ∀ g, Covers Mem (wrapGuard n g) path cell ↔ Covers Mem g path' rest := by
  induction hb with
  | zero => exact ⟨path, cell, hpath, hcell, fun g => Iff.rfl⟩
  | succ _ ih =>
    obtain ⟨path', rest, hpath', hrest, hcov⟩ := ih hcell
    obtain ⟨k, rest, rfl, hk, hrest⟩ := CellOf.exists_key hrest
    refine ⟨k :: path', rest, .cons hk hpath', hrest, fun g => ?_⟩
    rw [wrapGuard_succ, hcov, covers_codomain]

/-- The key at one level, and what stands under it. -/
lemma exists_covers_step (hb : Beneath above t n above' (.dataFunction own values))
    (hpath : InLevels above path) (hcell : CellOf InExtent t cell) :
    ∃ k path' rest, InExtent own k ∧ InLevels above' path' ∧ CellOf InExtent values rest ∧
      (∀ q, Covers Mem (wrapGuard n (.domain q)) path cell ↔ Mem q (k :: path')) ∧
      ∀ g, Covers Mem (wrapGuard (n + 1) g) path cell ↔ Covers Mem g (k :: path') rest := by
  obtain ⟨path', rest, hpath', hrest, hcov⟩ := exists_covers_wrapGuard hb hpath hcell
  obtain ⟨k, rest, rfl, hk, hrest⟩ := CellOf.exists_key hrest
  refine ⟨k, path', rest, hk, hpath', hrest, fun q => ?_, fun g => ?_⟩
  · rw [hcov, covers_domain]
  · rw [wrapGuard_succ, hcov, covers_codomain]

/-! ## Rows named whole -/

open Predicate (Over Returns Atoms atoms_of_levels)

/-- A leaf's rows are a statement over the levels above it. -/
lemma LeafShape.leafRows_over (hne : above ≠ []) (h : LeafShape p)
    (hp : p.Over (keyless :: above)) : ∃ rows, TileGuard.leafRows p = some rows ∧ rows.Over above ∧
      ∀ path, Mem rows path ↔ Mem p (.unit :: path) := by
  cases h with
  | tt => exact ⟨.tt, leafRows_tt, Over.tt_of_ne_nil hne, by simp⟩
  | ff => exact ⟨.ff, leafRows_ff, Over.ff_of_ne_nil hne, by simp⟩
  | under =>
    cases hp with
    | ofQualified _ he _ => exact ⟨_, leafRows_under, he, by simp [Predicate.mem_ofQualified]⟩

section Whole

variable [ScalarOps] {levels : List Extent}

omit [ScalarOps] in
/-- A predicate that is answered, as the region it names. -/
lemma returns_of_eq_some {o : Option Predicate} {w : Predicate} (ho : o = some w)
    (hw : Over levels w) :
    Returns levels (fun _ => True) o (fun x => ∃ w, o = some w ∧ Mem w x) := by
  refine ⟨w, ho, hw, trivial, fun x _ => ⟨fun h => ⟨w, ho, h⟩, ?_⟩⟩
  rintro ⟨w', ho', h⟩
  obtain rfl := mem_unique ho ho'
  exact h

/-- What `intersectOver` answers, from the answers it meets. -/
lemma intersectOver_spec (hatoms : Atoms levels) (hne : levels ≠ []) {α : Type}
    {f : α → Option Predicate} {S : α → List KeyPoint → Prop} {xs : List α}
    (h : ∀ x ∈ xs, Returns levels (fun _ => True) (f x) (S x)) :
    Returns levels (fun _ => True) (intersectOver f xs) (fun y => ∀ x ∈ xs, S x y) := by
  -- over any meet so far
  have hfold : ∀ all, Over levels all → Returns levels (fun _ => True)
        (xs.foldlM (fun all x => do Predicate.intersect all (← f x)) all)
        (fun y => Mem all y ∧ ∀ x ∈ xs, S x y) := by
    induction xs with
    | nil => exact fun all hall => ⟨all, rfl, hall, trivial, fun y _ => by simp⟩
    | cons x xs ih =>
      intro all hall
      obtain ⟨one, hone, hover, _, hmem⟩ := h x (by simp)
      obtain ⟨both, hboth, hbover, _, hbmem⟩ := hatoms.intersect_spec hall hover
      rw [foldlM_cons]
      simp only [hone, bind_eq_bind, bind_some, hboth]
      refine (ih (fun x hx => h x (by simp [hx])) both hbover).congr fun y hy => ?_
      simp only [hbmem y hy, hmem y hy, and_assoc, forall_mem_cons]
  refine (hfold .tt (Over.tt_of_ne_nil hne)).congr fun y _ => ?_
  simp

lemma wholeUnder_ofOr (arms : List Predicate) :
    wholeUnder (.ofOr arms) = Predicate.unionOver wholeUnder arms := by
  rw [wholeUnder]
  exact Predicate.unionOver_attach _

/-- Under the paths `whole_under` answers, every key is admitted. -/
lemma wholeUnder_spec (hne : above ≠ []) (hl : ∀ e ∈ above, e.WellFormed)
    (hp : Over (own :: above) p) :
    ∃ w, wholeUnder p = some w ∧ Over above w ∧ ∀ path, InLevels above path → Mem w path →
      ∀ x, InExtent own x → Mem p (x :: path) := by
  have hff : Over above .ff := Over.ff_of_ne_nil hne
  -- a predicate that is no `Or` and names no path: everything or nothing
  have hplain : ∀ {p}, Over (own :: above) p →
      ∃ w, (if p.isTrue then some Predicate.tt else some .ff) = some w ∧ Over above w ∧
        ∀ path, InLevels above path → Mem w path → ∀ x, InExtent own x → Mem p (x :: path) := by
    intro p hp
    split_ifs with htrue
    · exact ⟨.tt, rfl, Over.tt_of_ne_nil hne, fun path hpath _ x hx =>
        Predicate.mem_of_isTrue hp htrue (.cons hx hpath)⟩
    · exact ⟨.ff, rfl, hff, by simp⟩
  induction p with
  | ofOr arms ih =>
    rw [wholeUnder_ofOr]
    have harms : ∀ a ∈ arms, Returns above (fun _ => True) (wholeUnder a)
        (fun path => ∃ w, wholeUnder a = some w ∧ Mem w path) := by
      intro a ha
      obtain ⟨w, hw, hover, _⟩ := ih a ha (hp.of_mem_arms ha)
      exact returns_of_eq_some hw hover
    obtain ⟨w, hw, hover, _, hmem⟩ := Predicate.unionOver_spec (atoms_of_levels hne hl) hne harms
    refine ⟨w, hw, hover, fun path hpath hin x hx => ?_⟩
    obtain ⟨a, ha, v, hv, hin⟩ := (hmem path hpath).mp hin
    obtain ⟨v', hv', _, hall⟩ := ih a ha (hp.of_mem_arms ha)
    obtain rfl := mem_unique hv hv'
    exact .ofOr ha (hall path hpath hin x hx)
  | ofQualified e here _ _ =>
    rw [wholeUnder]
    have hnot : (Predicate.ofQualified e here).isTrue = false := by
      rw [← Bool.not_eq_true, Predicate.isTrue_iff, Predicate.asBool]
      split_ifs <;> simp
    cases hp with
    | ofQualified _ he hh =>
      simp only [hnot, Bool.false_eq_true, if_false]
      split_ifs with htrue
      · exact ⟨e, rfl, he, fun path hpath hin x hx => .ofQualified hin
          (Predicate.mem_of_isTrue hh htrue (inLevels_singleton.mpr hx))⟩
      · exact ⟨.ff, rfl, hff, by simp⟩
  | tt | ff | ofIntervals | ofRecord | ofUnion =>
    simp only [wholeUnder]
    exact hplain hp

lemma wholeRows_record (hu : (record fields).isUniversal = false)
    (he : (record fields).isEmpty = false) :
    wholeRows (.record fields) =
      intersectOver (fun kg : String × TileGuard => wholeRows kg.2) fields := by
  rw [wholeRows]
  simp only [hu, he, Bool.false_eq_true, if_false, intersectOver]
  conv_rhs => rw [← attach_map_subtype_val fields, foldlM_map]

lemma wholeRows_ofOr (hu : (ofOr arms).isUniversal = false) (he : (ofOr arms).isEmpty = false) :
    wholeRows (.ofOr arms) = Predicate.unionOver wholeRows arms := by
  rw [wholeRows]
  simp only [hu, he, Bool.false_eq_true, if_false, Predicate.unionOver]
  conv_rhs => rw [← attach_map_subtype_val arms, foldlM_map]

/-- A statement over the levels above, under whose paths the guard covers everything. -/
def NamesRows (above : List Extent) (t : Tiling) (g : TileGuard) (rows : Predicate) : Prop :=
  Over above rows ∧ ∀ path, InLevels above path → Mem rows path →
    ∀ cell, CellOf InExtent t cell → Covers Mem g path cell

/-- Every path for a guard called universal, none for one called empty. -/
lemma wholeRows_of_cases (hne : above ≠ []) (hg : IsOver above t g)
    (h : g.isUniversal = false → g.isEmpty = false →
      ∃ w, wholeRows g = some w ∧ NamesRows above t g w) :
    ∃ w, wholeRows g = some w ∧ NamesRows above t g w := by
  cases hu : g.isUniversal with
  | true =>
    exact ⟨.tt, by simp [wholeRows_def, hu], Over.tt_of_ne_nil hne, fun path hpath _ cell hcell =>
      covers_of_isUniversal hg hu hpath hcell⟩
  | false =>
    cases he : g.isEmpty with
    | true => exact ⟨.ff, by simp [wholeRows_def, hu, he], Over.ff_of_ne_nil hne, by simp⟩
    | false => exact h hu he

/-- The rows every field names whole are rows the record does. -/
lemma wholeFields_spec (hne : above ≠ []) (hl : ∀ e ∈ above, e.WellFormed)
    (hkeys : fields.map (·.1) = tilings.map (·.1))
    (h : ∀ k g t, (k, g) ∈ fields → tilings.lookup k = some t →
      ∃ w, wholeRows g = some w ∧ NamesRows above t g w) :
    ∃ w, intersectOver (fun kg : String × TileGuard => wholeRows kg.2) fields = some w ∧
      NamesRows above (.record tilings) (.record fields) w := by
  have hreturns : ∀ kg ∈ fields, Returns above (fun _ => True) (wholeRows kg.2)
      (fun path => ∃ w, wholeRows kg.2 = some w ∧ Mem w path) := by
    rintro ⟨k, g⟩ hmem
    obtain ⟨t, ht⟩ := exists_lookup_of_keys_eq hkeys hmem
    obtain ⟨w, hw, hover, _⟩ := h k g t hmem ht
    exact returns_of_eq_some hw hover
  obtain ⟨w, hw, hover, _, hmem⟩ := intersectOver_spec (atoms_of_levels hne hl) hne hreturns
  refine ⟨w, hw, hover, fun path hpath hin cell hcell => ?_⟩
  obtain ⟨name, t, rest, rfl, ht, hrest⟩ := CellOf.exists_field hcell
  obtain ⟨g, hg⟩ := exists_lookup_of_cell hkeys ht
  have hentry := mem_of_lookup_eq_some hg
  obtain ⟨v, hv, _, hall⟩ := h name g t hentry ht
  obtain ⟨v', hv', hin'⟩ := (hmem path hpath).mp hin _ hentry
  obtain rfl := mem_unique hv hv'
  exact .record hg (hall path hpath hin' rest hrest)

/-- **Under the rows `whole_rows` answers, everything is covered.** -/
theorem wholeRows_spec (hne : above ≠ []) (hl : ∀ e ∈ above, e.WellFormed) (ht : t.WellFormed)
    (hg : IsOver above t g) : ∃ w, wholeRows g = some w ∧ NamesRows above t g w := by
  induction hg with
  | scalar hs hp | aggregation hs hp =>
    refine wholeRows_of_cases hne (by constructor <;> assumption) fun hu he => ?_
    obtain ⟨rows, hrows, hover, hmem⟩ := hs.leafRows_over hne hp
    refine ⟨rows, ?_, hover, fun path _ hin cell hcell => ?_⟩
    · rw [wholeRows]
      simpa [hu, he] using hrows
    · cases hcell
      constructor <;> assumption
  | domain hlevel hp =>
    refine wholeRows_of_cases hne (.domain hlevel hp) fun hu he => ?_
    obtain ⟨w, hw, hover, hall⟩ := wholeUnder_spec hne hl hp
    refine ⟨w, ?_, hover, fun path hpath hin cell hcell => ?_⟩
    · rw [wholeRows]
      simpa [hu, he] using hw
    · obtain ⟨k, rest, rfl, hk⟩ := hlevel.exists_key hcell
      exact .domain (hall path hpath hin k hk)
  | codomain hg ih =>
    refine wholeRows_of_cases hne (.codomain hg) fun hu he => ?_
    cases ht with
    | dataFunction hown hvalues =>
      obtain ⟨w, hw, hover, hall⟩ := ih (by simp) (by simpa using ⟨hown, hl⟩) hvalues
      obtain ⟨w', hw', hover', hall'⟩ := wholeUnder_spec hne hl hover
      refine ⟨w', ?_, hover', fun path hpath hin cell hcell => ?_⟩
      · rw [wholeRows]
        simpa [hu, he, hw] using hw'
      · obtain ⟨k, rest, rfl, hk, hrest⟩ := CellOf.exists_key hcell
        exact .codomain (hall _ (.cons hk hpath) (hall' path hpath hin k hk) rest hrest)
  | record hasc hkeys hg ih =>
    refine wholeRows_of_cases hne (.record hasc hkeys hg) fun hu he => ?_
    rw [wholeRows_record hu he]
    cases ht with
    | record _ htilings =>
      exact wholeFields_spec hne hl hkeys fun k g t hmem ht =>
        ih k g t hmem ht hne hl (htilings k t (mem_of_lookup_eq_some ht))
  | @ofOr above t arms harms hg ih =>
    refine wholeRows_of_cases hne (.ofOr harms hg) fun hu he => ?_
    rw [wholeRows_ofOr hu he]
    have hreturns : ∀ arm ∈ arms, Returns above (fun _ => True) (wholeRows arm)
        (fun path => ∃ w, wholeRows arm = some w ∧ Mem w path) := by
      intro arm harm
      obtain ⟨w, hw, hover, _⟩ := ih arm harm hne hl ht
      exact returns_of_eq_some hw hover
    obtain ⟨w, hw, hover, _, hmem⟩ := Predicate.unionOver_spec (atoms_of_levels hne hl) hne hreturns
    refine ⟨w, hw, hover, fun path hpath hin cell hcell => ?_⟩
    obtain ⟨arm, harm, v, hv, hin'⟩ := (hmem path hpath).mp hin
    obtain ⟨v', hv', _, hall⟩ := ih arm harm hne hl ht
    obtain rfl := mem_unique hv hv'
    exact .ofOr harm (hall path hpath hin' cell hcell)

end Whole

end TileGuard

end Cambra
