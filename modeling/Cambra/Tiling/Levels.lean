import Cambra.Tiling.Beneath

/-!
# Completion statements over restructured levels

What the restatements of `predicate.rs` say on values, for every predicate applicable over its
levels and every place of the change.  Levels are written innermost first, so a predicate over the
paths reaching level `level` has `level + 1` of them, and the levels outside component `at_` are the
last `at_`.

* A level inserted is read over, and `within` reads a suffix as the whole path: always.
* `beneath` admits the paths through its row that it admitted as suffixes, and `within` takes it
  back: always.
* Two levels paired read the pair as its two keys where no arm at that level has an enclosing
  statement that is an `Or` with a path above it (`Pairable`).  With such an enclosing statement the
  whole `Or` is put into the record, where it is read against a key alone and panics
  (`paired_enclosing_or_panics`).  At the two outermost levels there is nothing above, so there
  every predicate is restated (`pairable_of_outermost`).
* A level unpaired reads the two keys as the pair exactly where no arm over the pairs is an `Or` of
  `Or`s (`Unpairable`), which `split_record` refuses.
-/

namespace Cambra

open List

namespace Predicate

/-! ## Reading a restated predicate -/

/-- The computation returns a predicate applicable over `inner ++ base'` that reads a path there as
`p` reads the path whose outer part `R` relates to it. -/
def Restated (inner base base' : List Extent) (R : List Value → List Value → Prop) (p : Predicate)
    (o : Option Predicate) : Prop :=
  ∃ r, o = some r ∧ r.Applies (inner ++ base') ∧
    ∀ suffix tail tail', ValuesOf inner suffix → ValuesOf base' tail → ValuesOf base tail' →
      R tail tail' → r.containsPath (suffix ++ tail) = p.containsPath (suffix ++ tail')

/-- The outer part of a path with the key of an inserted level in it, and without. -/
def WithInserted (tail tail' : List Value) : Prop :=
  ∃ key new above, tail = key :: new :: above ∧ tail' = key :: above

/-- The outer part of a path that ends in a pair, and in the two keys of it. -/
def WithPair (fields : String × String) (tail tail' : List Value) : Prop :=
  ∃ a b above, tail = .record (pairEntries fields a b) :: above ∧ tail' = b :: a :: above

variable {above : List Extent} {own : Extent} {p : Predicate}

lemma ValuesOf.append {xs ys : List Extent} {us vs : List Value} (hu : ValuesOf xs us)
    (hv : ValuesOf ys vs) : ValuesOf (xs ++ ys) (us ++ vs) :=
  rel_append hu hv

section

variable [ScalarOps] {inner : List Extent}

omit [ScalarOps] in
/-- A restatement of the points is one of the values. -/
lemma restated_of_returns {base base' : List Extent} (hl : ∀ e ∈ inner ++ base', e.WellFormed)
    (hp : Over (inner ++ base) p) {o : Option Predicate} {φ : List KeyPoint → List KeyPoint}
    {R : List Value → List Value → Prop} (h : Returns (inner ++ base') (fun _ => True) o
      (fun x => Mem p (x.take inner.length ++ φ (x.drop inner.length))))
    (hφ : ∀ tail tail', ValuesOf base' tail → ValuesOf base tail' → R tail tail' →
      φ (tail.map Value.point) = tail'.map Value.point) : Restated inner base base' R p o := by
  obtain ⟨r, hr, hover, _, hmem⟩ := h
  refine ⟨r, hr, (over_iff hl).mp hover, fun suffix tail tail' hs ht ht' hR => ?_⟩
  obtain ⟨b, hb, hiff⟩ := containsPath_decides hover (hs.append ht)
  obtain ⟨c, hc, hiff'⟩ := containsPath_decides hp (hs.append ht')
  have hlen : inner.length = (suffix.map Value.point).length := by
    rw [length_map]
    exact hs.length_eq
  have hsame : Mem r ((suffix ++ tail).map Value.point) ↔
      Mem p ((suffix ++ tail').map Value.point) := by
    rw [hmem _ (hs.append ht).inLevels]
    simp [hlen, hφ tail tail' ht ht' hR]
  rw [hb, hc, Bool.eq_iff_iff.mpr (hiff.trans (hsame.trans hiff'.symm))]

/-! ## The four walks -/

lemma withLevelInserted_restated {extra : Extent} (hl : ∀ e ∈ inner ++ own :: above, e.WellFormed)
    (hextra : extra.WellFormed) (hp : p.Applies (inner ++ own :: above)) :
    Restated inner (own :: above) (own :: extra :: above) WithInserted p
      (p.withLevelInserted (inner.length + above.length) above.length) := by
  have hl' : ∀ e ∈ inner ++ own :: extra :: above, e.WellFormed := by
    simp only [mem_append, List.mem_cons] at hl ⊢
    rintro e (he | rfl | rfl | he)
    · exact hl e (.inl he)
    · exact hl e (.inr (.inl rfl))
    · exact hextra
    · exact hl e (.inr (.inr he))
  refine restated_of_returns hl' (hp.over hl) ?_ ?_ (φ := fun y => y.eraseIdx 1)
  · rw [withLevelInserted, Nat.add_sub_cancel]
    exact restateAt_spec (by simp) (fun q hq hor (_ : True) => insertStep_spec extra hq hor)
      (.of_forall (fun _ _ => trivial) _ _) rfl hl' (hp.over hl)
  · rintro _ _ _ _ ⟨key, new, rest, rfl, rfl⟩
    rfl

lemma within_restated (hl : ∀ e ∈ inner ++ own :: above, e.WellFormed) {row : List Value}
    (hrow : ValuesOf above row) (hp : p.Applies (inner ++ own :: above)) :
    Restated inner (own :: above) [own] (fun tail tail' => tail' = tail ++ row) p
      (p.within row inner.length) := by
  have hl' : ∀ e ∈ inner ++ [own], e.WellFormed := by
    simp only [mem_append, List.mem_cons, List.not_mem_nil, or_false] at hl ⊢
    rintro e (he | rfl)
    · exact hl e (.inl he)
    · exact hl e (.inr (.inl rfl))
  refine restated_of_returns hl' (hp.over hl) ?_ ?_ (φ := fun y => y ++ row.map Value.point)
  · exact restateAt_spec (by simp) (fun q hq hor (_ : True) => withinStep_spec hrow hq hor)
      (.of_forall (fun _ _ => trivial) _ _) rfl hl' (hp.over hl)
  · rintro tail _ _ _ rfl
    simp

section Pairs

variable {fields : String × String} (hf : fields.1 ≠ fields.2) {outer : List Extent}
  {pair e₀ e₁ : Extent} (hpair : pair.resolve = .record (pairEntries fields e₀ e₁))
  (hl : ∀ e ∈ inner ++ e₁ :: e₀ :: outer, e.WellFormed)
  (hl' : ∀ e ∈ inner ++ pair :: outer, e.WellFormed)

include hf hpair hl hl'

lemma withLevelsPaired_restated (hp : p.Applies (inner ++ e₁ :: e₀ :: outer))
    (hC : AtLevel Pairable inner.length p) :
    Restated inner (e₁ :: e₀ :: outer) (pair :: outer) (WithPair fields) p
      (p.withLevelsPaired (inner.length + outer.length + 1) outer.length fields) := by
  refine restated_of_returns hl' (hp.over hl) ?_ ?_ (φ := unpairPath fields)
  · have hn : inner.length + outer.length + 1 - (outer.length + 1) = inner.length := by omega
    rw [withLevelsPaired, hn]
    exact restateAt_spec (by simp) (fun q hq hor hC => pairStep_spec hf hpair hq hor hC) hC rfl hl'
      (hp.over hl)
  · rintro _ _ _ _ ⟨a, b, above, rfl, rfl⟩
    simp [unpairPath, Value.point, Value.fieldPoint_eq (lookup_pairEntries_fst hf a b),
      Value.fieldPoint_eq (lookup_pairEntries_snd hf a b)]

omit [ScalarOps] hpair hl hl' in
lemma fieldPoint_pairEntries (a b : Value) :
    Value.fieldPoint (pairEntries fields a b) = pairPoint fields a.point b.point := by
  funext name
  by_cases h₁ : name = fields.1
  · rw [h₁, Value.fieldPoint_eq (lookup_pairEntries_fst hf a b), pairPoint, if_pos rfl]
  · by_cases h₂ : name = fields.2
    · rw [h₂, Value.fieldPoint_eq (lookup_pairEntries_snd hf a b), pairPoint, if_neg hf.symm,
        if_pos rfl]
    · simp only [pairEntries, if_neg hf, pairPoint, if_neg h₁, if_neg h₂]
      split_ifs <;> simp [Value.fieldPoint, h₁, h₂]

lemma withLevelsUnpaired_restated (hp : p.Applies (inner ++ pair :: outer))
    (hC : AtLevel Unpairable inner.length p) :
    Restated inner (pair :: outer) (e₁ :: e₀ :: outer)
      (fun tail tail' => WithPair fields tail' tail) p
      (p.withLevelsUnpaired (inner.length + outer.length) outer.length fields) := by
  have hlo : ∀ e ∈ e₁ :: e₀ :: outer, e.WellFormed := fun e he => hl e (by simp_all)
  refine restated_of_returns hl (hp.over hl') ?_ ?_ (φ := pairPath fields)
  · rw [withLevelsUnpaired, Nat.add_sub_cancel]
    exact restateAt_spec (by simp) (fun q hq hor hC => unpairStep_spec hf hpair hlo hq hor hC) hC
      rfl hl (hp.over hl')
  · rintro _ _ _ _ ⟨a, b, above, rfl, rfl⟩
    simp [pairPath, Value.point, fieldPoint_pairEntries hf]

end Pairs

/-! ### Where the walk of `with_levels_unpaired` panics -/

lemma isSome_of_unionOver {α : Type} {f : α → Option Predicate} {xs : List α}
    (h : (unionOver f xs).isSome) {x : α} (hx : x ∈ xs) : (f x).isSome := by
  rw [unionOver] at h
  generalize Predicate.ff = all at h
  induction xs generalizing all with
  | nil => simp at hx
  | cons y xs ih =>
    rw [foldlM_cons] at h
    cases hy : f y with
    | none => simp [hy] at h
    | some one =>
      rcases List.mem_cons.mp hx with rfl | hx
      · simp [hy]
      · cases hboth : union all one with
        | none => simp [hy, hboth] at h
        | some both => exact ih hx both (by simpa [hy, hboth] using h)

/-- A walk that returns has met arms its step returns on. -/
lemma AtLevel.of_restateAt {last : Predicate → Option Predicate} {C : Predicate → Prop}
    (hlast : ∀ p, p.isOr = false → (last p).isSome → C p) {n : ℕ}
    (h : (restateAt last n p).isSome) : AtLevel C n p := by
  induction p generalizing n with
  | ofOr arms ih =>
    rw [restateAt_ofOr] at h
    exact .ofOr fun a ha => ih a ha (isSome_of_unionOver h ha)
  | ofQualified e k ihe _ =>
    cases n with
    | zero => exact .last rfl (hlast _ rfl (by rwa [restateAt_zero _ rfl] at h))
    | succ n =>
      refine .enclosing (ihe ?_)
      rw [restateAt_qualified] at h
      cases hr : restateAt last n e with
      | none => simp [hr] at h
      | some _ => rfl
  | _ =>
    cases n with
    | zero => exact .last rfl (hlast _ rfl (by rwa [restateAt_zero _ rfl] at h))
    | succ n => exact .unqualified rfl rfl

lemma unpairable_of_isSome {fields : String × String} (h : (unpairStep fields p).isSome) :
    Unpairable p := by
  intro a ha hor
  have hone := isSome_of_unionOver h ha
  by_contra hnone
  rw [Option.not_isSome_iff_eq_none] at hnone
  cases a with
  | ofOr arms => simp [unpairOne, splitAsRecord, hnone] at hone
  | _ => cases hor

/-! ### At the outermost levels -/

omit [ScalarOps] in
/-- With no level above the two that are paired, nothing can be named above them. -/
lemma pairable_of_outermost {e₁ e₀ : Extent} (hp : Over (inner ++ [e₁, e₀]) p) :
    AtLevel Pairable inner.length p := by
  induction p generalizing inner with
  | ofOr arms ih => exact .ofOr fun a ha => ih a ha (hp.of_mem_arms ha)
  | ofQualified e k ihe _ =>
    cases inner with
    | nil =>
      cases hp with
      | ofQualified _ he _ => exact .last rfl fun _ => he.not_qualifies
    | cons own rest =>
      cases hp with
      | ofQualified _ he _ => exact .enclosing (ihe he)
  | _ =>
    cases inner with
    | nil => exact .last rfl fun h => by simp [splitQualification, isOr] at h
    | cons own rest => exact .unqualified rfl rfl

end

/-! ## Beneath a row, and back -/

section Beneath

variable [ScalarOps] [∀ τ : ScalarType, IntervalOps.LawfulNew τ.Val]

/-- `o` places `p` under the row: it admits the paths through `row` that extend it by a path of `p`,
and `within` reads `p` back. -/
def Placed (suffixes outer : List Extent) (row : List Value) (p : Predicate)
    (o : Option Predicate) : Prop :=
  ∃ r, o = some r ∧ (∀ suffix rest, SpellsPath suffixes suffix → SpellsPath outer rest →
      Decides (r.containsPath (suffix ++ rest)) (rest = row ∧ p.Admits suffix)) ∧
    ∃ back, r.within row (suffixes.length - 1) = some back ∧
      ∀ suffix, SpellsPath suffixes suffix → back.containsPath suffix = p.containsPath suffix

lemma beneath_placed {outer : List Extent} (hl : ∀ e ∈ own :: above ++ outer, e.WellFormed)
    {row : List Value} (hrow : SpellsPath outer row) (hp : p.Applies (own :: above)) :
    Placed (own :: above) outer row p (p.beneath row above.length) := by
  have hlp : ∀ e ∈ own :: above, e.WellFormed := fun e he => hl e (mem_append_left _ he)
  have hlo : ∀ e ∈ outer, e.WellFormed := fun e he => hl e (mem_append_right _ he)
  have hls : ∀ e ∈ (own :: above ++ outer).map Extent.strip, e.WellFormed := by
    intro e he
    obtain ⟨e', he', rfl⟩ := mem_map.mp he
    exact (hl e' he').strip
  obtain ⟨rows, hrows, hencl, hrmem⟩ := exactly_spec hlo hrow
  rw [map_append] at hls
  obtain ⟨r, hr, hover, _, hmem⟩ := qualifiedBy_spec hencl hls (hp.over hlp).strip
  rw [length_map] at hr hmem
  have hread : ∀ suffix rest, SpellsPath (own :: above) suffix → SpellsPath outer rest →
      Decides (r.containsPath (suffix ++ rest)) (rest = row ∧ p.Admits suffix) := by
    intro suffix rest hs hrest
    have hpath := hs.strip.valuesOf.append hrest.strip.valuesOf
    refine (containsPath_decides hover hpath).congr ?_
    have hlen : above.length + 1 = (suffix.map Value.point).length := by
      rw [length_map, ← hs.length_eq, length_cons]
    rw [hmem _ hpath.inLevels, map_append]
    simp only [hlen, take_left, drop_left]
    rw [hrmem rest hrest, hp.admits_iff hlp hs.valuesOf]
    exact and_comm
  refine ⟨r, by rw [beneath, hrows]; exact hr, hread, ?_⟩
  -- the innermost levels of the group, and its own
  obtain ⟨inner, last, hsplit⟩ : ∃ inner last, own :: above = inner ++ [last] :=
    ⟨_, _, (dropLast_append_getLast (by simp)).symm⟩
  have hlevels : (own :: above).map Extent.strip ++ outer.map Extent.strip =
      inner.map Extent.strip ++ last.strip :: outer.map Extent.strip := by
    rw [hsplit]
    simp
  have happ : r.Applies ((own :: above).map Extent.strip ++ outer.map Extent.strip) :=
    (over_iff hls).mp hover
  rw [hlevels] at happ
  rw [hlevels] at hls
  obtain ⟨back, hback, _, hbread⟩ := within_restated hls hrow.strip.valuesOf happ
  have hn : (own :: above).length - 1 = (inner.map Extent.strip).length := by
    rw [hsplit]
    simp
  refine ⟨back, by rw [hn, hback], fun suffix hs => ?_⟩
  obtain ⟨b, hb, hiff⟩ := hread suffix row hs hrow
  obtain ⟨c, hc, hciff⟩ := containsPath_decides (hp.over hlp) hs.valuesOf
  rw [← hp.admits_iff hlp hs.valuesOf] at hciff
  have hsv := hs.strip.valuesOf
  rw [hsplit, map_append, map_singleton] at hsv
  have htake : ValuesOf (inner.map Extent.strip) (suffix.take (inner.map Extent.strip).length) := by
    have h := forall₂_take (inner.map Extent.strip).length hsv
    rwa [take_left] at h
  have hdrop : ValuesOf [last.strip] (suffix.drop (inner.map Extent.strip).length) := by
    have h := forall₂_drop (inner.map Extent.strip).length hsv
    rwa [drop_left] at h
  have hsame := hbread _ _ _ htake hdrop (hdrop.append hrow.strip.valuesOf) rfl
  rw [take_append_drop, ← append_assoc, take_append_drop, hb] at hsame
  rw [hsame, hc, Bool.eq_iff_iff.mpr (hiff.trans ((and_iff_right rfl).trans hciff.symm))]

end Beneath

/-! ## The restatements -/

/-- **Completion statements survive the restructuring of their levels.**  A level inserted, a suffix
read within a row, and a statement placed beneath one are read as they should be for every
predicate; two levels paired where the arms are `Pairable`; and a level unpaired exactly where they
are `Unpairable`. -/
theorem levels_restated [ScalarOps]
    [∀ τ : ScalarType, IntervalOps.LawfulNew τ.Val] {fields : String × String}
    (hf : fields.1 ≠ fields.2) :
    (∀ inner own extra above p, (∀ e ∈ inner ++ own :: above, e.WellFormed) → extra.WellFormed →
      p.Applies (inner ++ own :: above) →
      Restated inner (own :: above) (own :: extra :: above) WithInserted p
        (p.withLevelInserted (inner.length + above.length) above.length)) ∧
    (∀ inner own above row p, (∀ e ∈ inner ++ own :: above, e.WellFormed) → ValuesOf above row →
      p.Applies (inner ++ own :: above) →
      Restated inner (own :: above) [own] (fun tail tail' => tail' = tail ++ row) p
        (p.within row inner.length)) ∧
    (∀ own above outer row p, (∀ e ∈ own :: above ++ outer, e.WellFormed) → SpellsPath outer row →
      p.Applies (own :: above) →
      Placed (own :: above) outer row p (p.beneath row above.length)) ∧
    (∀ inner pair e₀ e₁ outer, pair.resolve = .record (pairEntries fields e₀ e₁) →
      (∀ e ∈ inner ++ e₁ :: e₀ :: outer, e.WellFormed) →
      (∀ e ∈ inner ++ pair :: outer, e.WellFormed) →
      (∀ p, p.Applies (inner ++ e₁ :: e₀ :: outer) → AtLevel Pairable inner.length p →
        Restated inner (e₁ :: e₀ :: outer) (pair :: outer) (WithPair fields) p
          (p.withLevelsPaired (inner.length + outer.length + 1) outer.length fields)) ∧
      ∀ p, p.Applies (inner ++ pair :: outer) → (Restated inner (pair :: outer) (e₁ :: e₀ :: outer)
            (fun tail tail' => WithPair fields tail' tail) p
            (p.withLevelsUnpaired (inner.length + outer.length) outer.length fields) ↔
          AtLevel Unpairable inner.length p)) := by
  refine ⟨?_, ?_, ?_, ?_⟩
  · intro inner own extra above p hl hextra hp
    exact withLevelInserted_restated hl hextra hp
  · intro inner own above row p hl hrow hp
    exact within_restated hl hrow hp
  · intro own above outer row p hl hrow hp
    exact beneath_placed hl hrow hp
  · intro inner pair e₀ e₁ outer hpair hl hl'
    refine ⟨fun p hp hC => withLevelsPaired_restated hf hpair hl hl' hp hC, fun p hp => ⟨?_, ?_⟩⟩
    · rintro ⟨r, hr, _⟩
      rw [withLevelsUnpaired, Nat.add_sub_cancel] at hr
      exact .of_restateAt (fun q _ h => unpairable_of_isSome h) (by rw [hr]; rfl)
    · exact withLevelsUnpaired_restated hf hpair hl hl' hp

/-! ## On Booleans -/

/-- `false` under `false`. -/
def bothFalse : Predicate := .ofQualified (onlyBool false) (onlyBool false)

/-- Pairs of Booleans. -/
def boolPair : Extent := .record (pairEntries ("0", "1") (.base .bool) (.base .bool))

lemma boolPair_wellFormed : boolPair.WellFormed := by
  refine .record (pairEntries_ascend _ _) fun k e he => ?_
  rcases (mem_pairEntries (by decide)).mp he with h | h <;> obtain ⟨_, rfl⟩ := Prod.mk.inj h
  · exact .base
  · exact .base

/-- The key `true` under either path. -/
def underEither : Predicate := .ofQualified eitherBool (onlyBool true)

lemma underEither_applies : underEither.Applies [.base .bool, .base .bool, .base .bool] := by
  refine ⟨.ofQualified (.ofOr (by simp) ?_ ?_) (onlyBool_wellFormed true), ?_⟩
  · simp [onlyBool_wellFormed]
  · simp [onlyBool, isOr]
  · simp [underEither, eitherBool, onlyBool, isApplicableOver, Extent.resolve, Extent.scalarType]

/-- The pairs with `true` first or second, under the path `true`. -/
def pairWithTrue : Predicate :=
  .ofQualified (onlyBool true) (.ofOr [.ofRecord (pairEntries ("0", "1") (onlyBool true) .tt),
    .ofRecord (pairEntries ("0", "1") .tt (onlyBool true))])

lemma pairWithTrue_applies : pairWithTrue.Applies [boolPair, .base .bool] := by
  have hrecord : ∀ p q : Predicate, p.WellFormed → q.WellFormed →
      (ofRecord (pairEntries ("0", "1") p q)).WellFormed := by
    refine fun p q hp hq => .ofRecord (pairEntries_ascend _ _) fun k r hr => ?_
    rcases (mem_pairEntries (by decide)).mp hr with h | h <;> obtain ⟨_, rfl⟩ := Prod.mk.inj h
    · exact hp
    · exact hq
  refine ⟨.ofQualified (onlyBool_wellFormed true) (.ofOr (by simp) ?_ ?_), ?_⟩
  · simp [hrecord, onlyBool_wellFormed, WellFormed.tt]
  · simp [isOr]
  · have hentries : ∀ {β : Type} (a b : β), pairEntries ("0", "1") a b = [("0", a), ("1", b)] :=
      fun _ _ => rfl
    simp [pairWithTrue, boolPair, hentries, onlyBool, isApplicableOver, Extent.resolve,
      Extent.scalarType, List.lookup_cons]

/-- All the restatements of a predicate whose enclosing statement is an `Or`, and of an `Or` of
pairs. -/
theorem levels_restated_bools : underEither.Applies [.base .bool, .base .bool, .base .bool] ∧
    Restated [.base .bool] [.base .bool, .base .bool] [.base .bool, .base .unit, .base .bool]
      WithInserted underEither (underEither.withLevelInserted 2 1) ∧
    Restated [.base .bool] [.base .bool, .base .bool] [.base .bool]
      (fun tail tail' => tail' = tail ++ [.scalar .bool true]) underEither
      (underEither.within [.scalar .bool true] 1) ∧
    Placed [.base .bool, .base .bool, .base .bool] [.base .bool] [.scalar .bool false] underEither
      (underEither.beneath [.scalar .bool false] 2) ∧
    Restated [] [.base .bool, .base .bool, .base .bool] [boolPair, .base .bool]
      (WithPair ("0", "1")) underEither (underEither.withLevelsPaired 2 1 ("0", "1")) ∧
    pairWithTrue.Applies [boolPair, .base .bool] ∧
    Restated [] [boolPair, .base .bool] [.base .bool, .base .bool, .base .bool]
      (fun tail tail' => WithPair ("0", "1") tail' tail) pairWithTrue
      (pairWithTrue.withLevelsUnpaired 1 1 ("0", "1")) := by
  have hscalar : Extent.scalarType (.base .bool) = some .bool := rfl
  have hbool : ∀ e ∈ [Extent.base .bool, .base .bool, .base .bool], e.WellFormed := by
    simp [Extent.WellFormed.base]
  have hpairs : ∀ e ∈ [boolPair, Extent.base .bool], e.WellFormed := by
    simp [boolPair_wellFormed, Extent.WellFormed.base]
  have hpairable : AtLevel Pairable 0 underEither := .last rfl fun _ => by
    simp [underEither, splitQualification, eitherBool, qualifies, onlyBool]
  have hunpairable : AtLevel Unpairable 0 pairWithTrue := .last rfl fun a ha hor => by
    simp [pairWithTrue, splitQualification, orArms] at ha
    rcases ha with rfl | rfl <;> simp [isOr] at hor
  obtain ⟨hinsert, hwithin, hbeneath, hpair⟩ := @levels_restated _ _ ("0", "1") (by decide)
  obtain ⟨hpaired, hunpaired⟩ := hpair [] boolPair (.base .bool) (.base .bool) [.base .bool] rfl
    hbool hpairs
  refine ⟨underEither_applies,
    hinsert [.base .bool] (.base .bool) (.base .unit) [.base .bool] _ hbool .base
      underEither_applies,
    hwithin [.base .bool] (.base .bool) [.base .bool] _ _ hbool ?_ underEither_applies,
    hbeneath (.base .bool) [.base .bool, .base .bool] [.base .bool] _ _ ?_ ?_ underEither_applies,
    hpaired _ underEither_applies hpairable, pairWithTrue_applies,
    (hunpaired _ pairWithTrue_applies).mpr hunpairable⟩
  · exact .cons (.scalar hscalar true) .nil
  · simp [Extent.WellFormed.base]
  · exact .cons (.scalar hscalar false) .nil

/-- The paths `true, true` and `false, false`. -/
def agreeing : Predicate := .ofOr [bothTrue, bothFalse]

lemma asBool_agreeing : agreeing.asBool = none := by simp [agreeing, asBool, bothTrue, bothFalse]

/-- Any key under the paths `true, true` and `false, false`. -/
def underAgreeing : Predicate := .ofQualified agreeing .tt

lemma underAgreeing_applies : underAgreeing.Applies [.base .bool, .base .bool, .base .bool] := by
  have hboth : ∀ b, (ofQualified (onlyBool b) (onlyBool b)).WellFormed := fun b =>
    .ofQualified (onlyBool_wellFormed b) (onlyBool_wellFormed b)
  refine ⟨.ofQualified (.ofOr (by simp) ?_ ?_) .tt, ?_⟩
  · simp [bothTrue, bothFalse, hboth]
  · simp [bothTrue, bothFalse, isOr]
  · simp [underAgreeing, agreeing, bothTrue, bothFalse, isApplicableOver, onlyBool, Extent.resolve,
      Extent.scalarType]

lemma pairStep_underAgreeing :
    pairStep ("0", "1") underAgreeing = some (.ofRecord [("0", agreeing), ("1", .tt)]) := by
  have hentries : pairEntries ("0", "1") agreeing .tt = [("0", agreeing), ("1", .tt)] := rfl
  have hrecord : record (pairEntries ("0", "1") agreeing .tt) =
      some (.ofRecord [("0", agreeing), ("1", .tt)]) := by
    rw [hentries, record, Componentwise.build]
    simp [isFalse, asBool_agreeing, asBool]
  have hnone : (ofRecord [("0", agreeing), ("1", .tt)]).isFalse = false := by
    simp [isFalse, asBool, asBool_agreeing]
  have hsplit : underAgreeing.splitQualification = (agreeing, .tt) := rfl
  have hsplit' : agreeing.splitQualification = (.tt, agreeing) := rfl
  simp only [pairStep, hsplit, hsplit', hrecord, Option.bind_eq_bind, Option.bind_some, qualified,
    hnone]
  simp [isFalse, isTrue, asBool]

/-- **An enclosing statement that is an `Or` of qualified arms does not survive pairing**: with the
two inner levels paired, the predicate panics on a path it admitted. -/
theorem paired_enclosing_or_panics : underAgreeing.Applies [.base .bool, .base .bool, .base .bool] ∧
    underAgreeing.containsPath [.scalar .bool true, .scalar .bool true, .scalar .bool true] =
      some true ∧
    ∃ r, underAgreeing.withLevelsPaired 2 1 ("0", "1") = some r ∧
      r.containsPath [.record (pairEntries ("0", "1") (.scalar .bool true) (.scalar .bool true)),
        .scalar .bool true] = none := by
  have hread : (onlyBool true).contains (.scalar .bool true) = some true := by
    rw [onlyBool, contains_def]
    decide
  have hpath : agreeing.containsPath [.scalar .bool true, .scalar .bool true] = some true := by
    have hinner : (onlyBool true).containsPath [.scalar .bool true] = some true := by
      rw [containsPath_def]
      exact hread
    have hboth : bothTrue.containsPath [.scalar .bool true, .scalar .bool true] = some true := by
      rw [bothTrue, containsPath, hinner]
      exact hread
    rw [agreeing, containsPath]
    simp only [List.anyM, hboth]
    rfl
  refine ⟨underAgreeing_applies, ?_, .ofRecord [("0", agreeing), ("1", .tt)], ?_, ?_⟩
  · rw [underAgreeing, containsPath, hpath]
    simp [contains]
  · rw [withLevelsPaired, restateAt_zero _ rfl, pairStep_underAgreeing]
  -- the pair's first key is read against the `Or` alone
  have hor : agreeing.contains (.scalar .bool true) = none := by
    rw [agreeing, contains]
    simp [bothTrue, contains]
  rw [containsPath_def]
  simp only
  rw [contains_def]
  have hentries : pairEntries ("0", "1") (Value.scalar .bool true) (.scalar .bool true) =
    [("0", .scalar .bool true), ("1", .scalar .bool true)] := rfl
  simp [hentries, hor]

end Predicate

end Cambra
