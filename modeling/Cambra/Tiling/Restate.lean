import Cambra.Tiling.Exact

/-!
# Restating a predicate after its levels change

An operator that inserts a level, merges two levels into one keyed by pairs, splits such a level, or
takes one row's group out of a tile owes the statements it carries a restatement over the new paths
(`with_level_inserted`, `with_levels_paired`, `with_levels_unpaired`, `within`).  The four walk a
predicate alike: an `Or` arm by arm, with the arms united again; a qualified arm through its
enclosing statement, until the level the change is made at; and an arm that names no enclosing path
is left as it is before that.  The walk is `restateAt`, and what each does at its level is its own.

## Main results

* `restateAt_spec`: where the step at the level reads a path as `φ` says, the walk does so under
  every path below it.
* `insertStep_spec`, `pairStep_spec`, `unpairStep_spec`, `withinStep_spec`: the four steps do.

The step of `with_levels_paired` takes the enclosing statement apart by `split_qualification`, which
does not look into an `Or`; `Pairable` is where that is enough.  The step of `with_levels_unpaired`
takes an `Or` of pairs apart once; `Unpairable` is where no `Or` is left in it.
-/

namespace Cambra

open List

/-- The entries of a hash map of two, the second of which is kept where the names agree. -/
def pairEntries {β : Type*} (fields : String × String) (first second : β) : List (String × β) :=
  if fields.1 < fields.2 then [(fields.1, first), (fields.2, second)]
  else if fields.1 = fields.2 then [(fields.2, second)]
  else [(fields.2, second), (fields.1, first)]

section Pairs

variable {β γ : Type*} {fields : String × String} (hf : fields.1 ≠ fields.2)

lemma pairEntries_keys (a b : β) (c d : γ) :
    (pairEntries fields a b).map (·.1) = (pairEntries fields c d).map (·.1) := by
  simp only [pairEntries]
  split_ifs <;> rfl

lemma pairEntries_ascend (a b : β) : KeysAscend (pairEntries fields a b) := by
  rw [KeysAscend, pairEntries]
  split_ifs with hlt heq
  · simpa using hlt
  · simp
  · simpa using lt_of_le_of_ne (not_lt.mp hlt) (Ne.symm heq)

include hf

lemma lookup_pairEntries_fst (a b : β) : (pairEntries fields a b).lookup fields.1 = some a := by
  simp only [pairEntries]
  split_ifs with hlt
  · simp
  · rw [lookup_cons_of_ne hf]
    simp

lemma lookup_pairEntries_snd (a b : β) : (pairEntries fields a b).lookup fields.2 = some b := by
  simp only [pairEntries]
  split_ifs with hlt
  · rw [lookup_cons_of_ne hf.symm]
    simp
  · simp

lemma mem_pairEntries {a b : β} {kv : String × β} :
    kv ∈ pairEntries fields a b ↔ kv = (fields.1, a) ∨ kv = (fields.2, b) := by
  simp only [pairEntries, if_neg hf]
  split_ifs
  · simp
  · simp [or_comm]

lemma exists_pairEntries {a b : β} {m : List (String × γ)}
    (hkeys : m.map (·.1) = (pairEntries fields a b).map (·.1)) :
    ∃ c d, m = pairEntries fields c d := by
  simp only [pairEntries, if_neg hf] at hkeys ⊢
  split_ifs at hkeys ⊢
  all_goals
    obtain ⟨⟨k, c⟩, m, rfl⟩ := exists_cons_of_length_eq_add_one
      (by simpa using congrArg List.length hkeys)
    obtain ⟨⟨l, d⟩, m, rfl⟩ := exists_cons_of_length_eq_add_one
      (by simpa using congrArg List.length hkeys)
    simp only [map_cons, map_nil, List.cons.injEq, map_eq_nil_iff] at hkeys
    obtain ⟨rfl, rfl, rfl⟩ := hkeys
  · exact ⟨c, d, rfl⟩
  · exact ⟨d, c, rfl⟩

end Pairs

namespace Predicate

variable {p enclosing : Predicate} {above levels : List Extent} {own : Extent}

section Definitions

variable [ScalarOps]

/-- The union of what `f` makes of each of `xs`, one after the other, from `False`. -/
def unionOver {α : Type} (f : α → Option Predicate) (xs : List α) : Option Predicate :=
  xs.foldlM (fun all x => do union all (← f x)) .ff

/-- The walk: `last` restates an arm at the level of the change, `n` levels out from the
innermost. -/
def restateAt (last : Predicate → Option Predicate) : ℕ → Predicate → Option Predicate
  | n, .ofOr arms => unionOver (fun arm => restateAt last n arm.1) arms.attach
  | 0, arm => last arm
  | n + 1, .ofQualified enclosing here => do
    return qualified (← restateAt last n enclosing) here
  | _ + 1, unqualified => some unqualified
termination_by _ p => sizeOf p
decreasing_by
  · exact Predicate.sizeOf_arm_lt arm.2
  · exact Predicate.sizeOf_enclosing_lt

/-- An arm over the keys directly beneath the row at path `row`, over that row's group alone. -/
def withinStep (row : List Value) : Predicate → Option Predicate
  | .ofQualified enclosing here => do
    if ← enclosing.containsPath row then some here else some .ff
  | unqualified => some unqualified

/-- This predicate, over the keys `depth` levels beneath the row at path `row`, restated over the
paths of that row's group taken out on its own. -/
def within (self : Predicate) (row : List Value) (depth : ℕ) : Option Predicate :=
  restateAt (withinStep row) depth self

/-- An arm with a level that admits anything between its keys and its enclosing paths. -/
def insertStep : Predicate → Option Predicate
  | .ofQualified enclosing here => some (qualified (qualified enclosing .tt) here)
  | unqualified => some unqualified

/-- This predicate, over the paths reaching level `level`, restated after a level is inserted
before component `at_` (`at_ ≤ level`). -/
def withLevelInserted (self : Predicate) (level at_ : ℕ) : Option Predicate :=
  restateAt insertStep (level - at_) self

/-- An arm whose last two components merge into one pair record. -/
def pairStep (fields : String × String) (arm : Predicate) : Option Predicate := do
  let (enclosing, here) := arm.splitQualification
  let (above, outer) := enclosing.splitQualification
  return qualified above (← record (pairEntries fields outer here))

/-- This predicate, over the paths reaching level `level`, restated after components `at_` and
`at_ + 1` (`at_ < level`) merge into one pair record. -/
def withLevelsPaired (self : Predicate) (level at_ : ℕ) (fields : String × String) :
    Option Predicate :=
  restateAt (pairStep fields) (level - (at_ + 1)) self

/-- The predicate of each of the fields of a record (`split_record`). -/
def splitAsRecord (self : Predicate) (fields : List String) : Option (List (String × Predicate)) :=
  match self.asBool with
  | some b => some (fields.map fun f => (f, ofBool b))
  | none =>
    match self with
    | .ofRecord m =>
      if fields.length = m.length ∧ fields.all fun f => (m.lookup f).isSome then some m else none
    | _ => none

/-- One predicate over pairs, with the outer half of the pair moved to the enclosing path. -/
def unpairOne (fields : String × String) (enclosing pair : Predicate) : Option Predicate := do
  let split ← pair.splitAsRecord ((pairEntries fields () ()).map (·.1))
  let outer ← split.lookup fields.1
  let inner ← (split.filter (·.1 ≠ fields.1)).lookup fields.2
  return qualified (qualified enclosing outer) inner

/-- The predicates a union is of, and a predicate that is none itself. -/
def orArms : Predicate → List Predicate
  | .ofOr arms => arms
  | one => [one]

/-- An arm whose last component is a pair record, split into two components. -/
def unpairStep (fields : String × String) (arm : Predicate) : Option Predicate :=
  let (enclosing, here) := arm.splitQualification
  unionOver (unpairOne fields enclosing) here.orArms

/-- This predicate, over the paths reaching level `level`, restated after component `at_`
(`at_ ≤ level`), a pair record, splits into two components. -/
def withLevelsUnpaired (self : Predicate) (level at_ : ℕ) (fields : String × String) :
    Option Predicate :=
  restateAt (unpairStep fields) (level - at_) self

/-! ### The walk, case by case -/

lemma unionOver_attach {xs : List Predicate} (f : Predicate → Option Predicate) :
    unionOver (fun x => f x.1) xs.attach = unionOver f xs := by
  simp only [unionOver]
  conv_rhs => rw [← attach_map_subtype_val xs, foldlM_map]

variable (last : Predicate → Option Predicate) (n : ℕ)

lemma restateAt_ofOr (arms : List Predicate) :
    restateAt last n (.ofOr arms) = unionOver (restateAt last n) arms := by
  rw [restateAt]
  exact unionOver_attach _

lemma restateAt_zero (h : p.isOr = false) : restateAt last 0 p = last p := by
  cases p <;> simp_all [restateAt, isOr]

lemma restateAt_qualified (e h : Predicate) : restateAt last (n + 1) (.ofQualified e h) = do
      return qualified (← restateAt last n e) h := by rw [restateAt]

lemma restateAt_unqualified (hor : p.isOr = false) (hq : p.isQualified = false) :
    restateAt last (n + 1) p = some p := by
  cases p <;> simp_all [restateAt, isOr, isQualified]

end Definitions

/-! ## Statements about enclosing paths -/

/-- A statement over the enclosing paths, `True` where there is no level above. -/
def Encloses (above : List Extent) (p : Predicate) : Prop := above = [] ∧ p = .tt ∨ Over above p

lemma encloses_tt (above : List Extent) : Encloses above .tt := by
  cases above with
  | nil => exact .inl ⟨rfl, rfl⟩
  | cons own above => exact .inr .tt

/-- `qualified` admits the keys of `here` under the paths of `enclosing`. -/
lemma qualified_spec {here : Predicate} (he : Encloses above enclosing) (hh : Over [own] here) :
    Over (own :: above) (qualified enclosing here) ∧ ∀ x xs, InLevels above xs →
      (Mem (qualified enclosing here) (x :: xs) ↔ Mem enclosing xs ∧ Mem here [x]) := by
  simp only [qualified]
  split_ifs with hfalse htrue
  · refine ⟨.ff, fun x xs _ => ?_⟩
    simp only [mem_ff, false_iff, not_and]
    rcases Bool.or_eq_true_iff.mp hfalse with hf | hf
    · rcases he with ⟨_, rfl⟩ | he
      · simp [isFalse, asBool] at hf
      · exact fun hmem => absurd hmem (not_mem_of_isFalse he (isFalse_iff_asBool.mp hf) xs)
    · exact fun _ => not_mem_of_isFalse hh (isFalse_iff_asBool.mp hf) [x]
  · refine ⟨hh.under above, fun x xs hxs => ?_⟩
    have hmem : Mem enclosing xs := by
      rcases he with ⟨_, rfl⟩ | he
      · exact .tt
      · exact mem_of_isTrue he htrue hxs
    rw [mem_cons_iff hh.not_qualifies]
    simp [hmem]
  · rcases he with ⟨_, rfl⟩ | he
    · simp [isTrue, asBool] at htrue
    · exact ⟨.ofQualified he.levels_ne_nil he hh, fun x xs _ => mem_ofQualified⟩

lemma splitQualification_eq (hq : p.isQualified = false) : p.splitQualification = (.tt, p) := by
  cases p <;> simp_all [splitQualification, isQualified]

/-- The two halves of a predicate, where an `Or` names no enclosing path. -/
lemma split_spec (hp : Over (own :: above) p) (h : p.isOr = true → p.qualifies = false) :
    Encloses above p.splitQualification.1 ∧ Over [own] p.splitQualification.2 ∧
      ∀ x xs, (Mem p (x :: xs) ↔
        Mem p.splitQualification.1 xs ∧ Mem p.splitQualification.2 [x]) := by
  cases hq : p.isQualified with
  | true =>
    cases hp with
    | ofQualified _ he hh => exact ⟨.inr he, hh, fun x xs => mem_ofQualified⟩
    | _ => cases hq
  | false =>
    have hnot := qualifies_eq_false h hq
    rw [splitQualification_eq hq]
    exact ⟨encloses_tt above, hp.own hnot, fun x xs => by simp [mem_cons_iff hnot]⟩

lemma Over.of_mem_orArms {a : Predicate} (hp : Over levels p) (ha : a ∈ p.orArms) :
    Over levels a := by
  cases hor : p <;> simp only [hor, orArms, mem_singleton] at ha hp
  case ofOr arms => exact hp.of_mem_arms ha
  all_goals exact ha ▸ hp

lemma mem_iff_orArms {path : List KeyPoint} : Mem p path ↔ ∃ a ∈ p.orArms, Mem a path := by
  cases p <;> simp [orArms, mem_ofOr]

/-! ## The walk -/

section Walk

variable [ScalarOps] {α : Type} {C : Predicate → Prop}

lemma foldlM_union_spec (hatoms : Atoms levels) {f : α → Option Predicate}
    {S : α → List KeyPoint → Prop} {xs : List α}
    (h : ∀ x ∈ xs, Returns levels (fun _ => True) (f x) (S x)) {all : Predicate}
    (hall : Over levels all) :
    Returns levels (fun _ => True) (xs.foldlM (fun all x => do union all (← f x)) all)
      (fun y => Mem all y ∨ ∃ x ∈ xs, S x y) := by
  induction xs generalizing all with
  | nil => exact ⟨all, rfl, hall, trivial, fun y _ => by simp⟩
  | cons x xs ih =>
    obtain ⟨one, hone, hover, _, hmem⟩ := h x (by simp)
    obtain ⟨both, hboth, hbover, _, hbmem⟩ := hatoms.union_spec hall hover
    rw [foldlM_cons]
    simp only [hone, Option.bind_eq_bind, Option.bind_some, hboth]
    refine (ih (fun x hx => h x (by simp [hx])) hbover).congr fun y hy => ?_
    simp only [hbmem y hy, hmem y hy, or_assoc, List.mem_cons, exists_eq_or_imp]

/-- What `unionOver` answers, from the answers it unites. -/
lemma unionOver_spec (hatoms : Atoms levels) (hne : levels ≠ []) {f : α → Option Predicate}
    {S : α → List KeyPoint → Prop} {xs : List α}
    (h : ∀ x ∈ xs, Returns levels (fun _ => True) (f x) (S x)) :
    Returns levels (fun _ => True) (unionOver f xs) (fun y => ∃ x ∈ xs, S x y) := by
  refine (foldlM_union_spec hatoms h (Over.ff_of_ne_nil hne)).congr fun y _ => ?_
  simp

/-- What unites the answers on the arms of an `Or` is settled on the predicates that are none. -/
lemma returns_of_atoms {levels' : List Extent} (hatoms : Atoms levels') (hne : levels' ≠ [])
    {f : Predicate → Option Predicate} {S : Predicate → List KeyPoint → Prop}
    (hf : ∀ arms, f (.ofOr arms) = unionOver f arms)
    (hS : ∀ arms x, S (.ofOr arms) x ↔ ∃ a ∈ arms, S a x)
    (h : ∀ p, p.isOr = false → Over levels p → Returns levels' (fun _ => True) (f p) (S p))
    (hp : Over levels p) : Returns levels' (fun _ => True) (f p) (S p) := by
  induction p with
  | ofOr arms ih =>
    rw [hf]
    exact (unionOver_spec hatoms hne fun a ha => ih a ha (hp.of_mem_arms ha)).congr fun x _ =>
      (hS arms x).symm
  | _ => exact h _ rfl hp

/-- The arms a walk meets at its level, `n` out from the innermost, are of the class `C`. -/
inductive AtLevel (C : Predicate → Prop) : ℕ → Predicate → Prop
  | ofOr {n : ℕ} {arms : List Predicate} (h : ∀ a ∈ arms, AtLevel C n a) : AtLevel C n (.ofOr arms)
  | last {p : Predicate} (hor : p.isOr = false) (h : C p) : AtLevel C 0 p
  | enclosing {n : ℕ} {enclosing here : Predicate} (h : AtLevel C n enclosing) :
      AtLevel C (n + 1) (.ofQualified enclosing here)
  | unqualified {n : ℕ} {p : Predicate} (hor : p.isOr = false) (hq : p.isQualified = false) :
      AtLevel C (n + 1) p

omit [ScalarOps] in
lemma AtLevel.of_forall (h : ∀ p, p.isOr = false → C p) (n : ℕ) (p : Predicate) :
    AtLevel C n p := by
  induction p generalizing n with
  | ofOr arms ih => exact .ofOr fun a ha => ih a ha n
  | ofQualified e k ihe _ =>
    cases n with
    | zero => exact .last rfl (h _ rfl)
    | succ n => exact .enclosing (ihe n)
  | _ =>
    cases n with
    | zero => exact .last rfl (h _ rfl)
    | succ n => exact .unqualified rfl rfl

/-- **The walk restates a predicate as its step restates an arm.**  Over levels `inner ++ base`, the
step takes an arm over `base` to one over `base'` that reads a path as `φ` of it is read; the walk
does so beneath any keys of `inner`. -/
theorem restateAt_spec {base base' : List Extent} (hne : base' ≠ [])
    {φ : List KeyPoint → List KeyPoint} {last : Predicate → Option Predicate}
    (hlast : ∀ p, Over base p → p.isOr = false → C p →
      Returns base' (fun _ => True) (last p) (fun y => Mem p (φ y))) {n : ℕ} (hC : AtLevel C n p)
    {inner : List Extent} (hn : inner.length = n) (hl : ∀ e ∈ inner ++ base', e.WellFormed)
    (hp : Over (inner ++ base) p) :
    Returns (inner ++ base') (fun _ => True) (restateAt last n p)
      (fun x => Mem p (x.take n ++ φ (x.drop n))) := by
  induction hC generalizing inner with
  | ofOr _ ih =>
    rw [restateAt_ofOr]
    refine (unionOver_spec (atoms_of_levels (by simp [hne]) hl) (by simp [hne])
      fun a ha => ih a ha hn hl (hp.of_mem_arms ha)).congr fun x _ => ?_
    rw [mem_ofOr]
  | last hor hc =>
    obtain rfl := length_eq_zero_iff.mp hn
    rw [restateAt_zero _ hor]
    simpa using hlast _ hp hor hc
  | enclosing _ ih =>
    obtain ⟨own, rest, rfl⟩ := exists_cons_of_length_eq_add_one hn
    cases hp with
    | ofQualified _ he hh =>
      have hlrest : ∀ e ∈ rest ++ base', e.WellFormed := fun e hmem => hl e (by simp_all)
      obtain ⟨r, hr, hover, _, hmem⟩ := ih (by simpa using hn) hlrest he
      obtain ⟨hqover, hqmem⟩ := qualified_spec (.inr hover) hh
      refine ⟨_, by rw [restateAt_qualified, hr]; rfl, hqover, trivial, fun x hx => ?_⟩
      obtain ⟨k, ks, rfl, _, hks⟩ := hx.exists_cons
      simp [hqmem k ks hks, hmem ks hks, mem_ofQualified]
  | unqualified hor hq =>
    obtain ⟨own, rest, rfl⟩ := exists_cons_of_length_eq_add_one hn
    have hnot := qualifies_eq_false (by simp [hor]) hq
    refine ⟨_, restateAt_unqualified _ _ hor hq, (hp.own hnot).under _, trivial, fun x hx => ?_⟩
    obtain ⟨k, ks, rfl, _, _⟩ := hx.exists_cons
    simp only [take_succ_cons, cons_append]
    exact (mem_cons_iff hnot).trans (mem_cons_iff hnot).symm

end Walk

/-! ## The steps -/

section Steps

/-- An unqualified arm says the same whatever stands above its keys. -/
lemma returns_unqualified {above' : List Extent} (hp : Over (own :: above) p)
    (hq : p.qualifies = false) {S : List KeyPoint → Prop} (hS : ∀ x xs, S (x :: xs) ↔ Mem p [x]) :
    Returns (own :: above') (fun _ => True) (some p) S := by
  refine ⟨p, rfl, (hp.own hq).under above', trivial, fun x hx => ?_⟩
  obtain ⟨k, ks, rfl, _, _⟩ := hx.exists_cons
  rw [mem_cons_iff hq, hS]

lemma withinStep_spec {row : List Value} (hrow : ValuesOf above row) (hp : Over (own :: above) p)
    (hor : p.isOr = false) :
    Returns [own] (fun _ => True) (withinStep row p)
        (fun y => Mem p (y ++ row.map Value.point)) := by
  cases hq : p.isQualified with
  | true =>
    cases hp with
    | ofQualified _ he hh =>
      obtain ⟨b, hb, hiff⟩ := containsPath_decides he hrow
      simp only [withinStep, hb, Option.bind_eq_bind, Option.bind_some]
      cases b with
      | true =>
        refine ⟨_, rfl, hh, trivial, fun y hy => ?_⟩
        obtain ⟨k, rfl, _⟩ := hy.exists_singleton
        simp [mem_ofQualified, hiff.mp rfl]
      | false =>
        refine ⟨_, rfl, .ff, trivial, fun y hy => ?_⟩
        obtain ⟨k, rfl, _⟩ := hy.exists_singleton
        simp [mem_ofQualified, ← hiff]
    | _ => cases hq
  | false =>
    have hnot := qualifies_eq_false (by simp [hor]) hq
    have hstep : withinStep row p = some p := by cases p <;> simp_all [withinStep, isQualified]
    rw [hstep]
    exact returns_unqualified hp hnot fun x xs => mem_cons_iff hnot

lemma insertStep_spec (extra : Extent) (hp : Over (own :: above) p) (hor : p.isOr = false) :
    Returns (own :: extra :: above) (fun _ => True) (insertStep p)
      (fun y => Mem p (y.eraseIdx 1)) := by
  cases hq : p.isQualified with
  | true =>
    cases hp with
    | ofQualified _ he hh =>
      obtain ⟨hover, hmem⟩ := qualified_spec (.inr he) (.tt : Over [extra] .tt)
      obtain ⟨hover', hmem'⟩ := qualified_spec (.inr hover) hh
      refine ⟨_, rfl, hover', trivial, fun y hy => ?_⟩
      obtain ⟨k, ks, rfl, _, hks⟩ := hy.exists_cons
      rw [hmem' k ks hks]
      obtain ⟨x, xs, rfl, _, hxs⟩ := hks.exists_cons
      rw [hmem x xs hxs]
      simp [mem_ofQualified]
    | _ => cases hq
  | false =>
    have hnot := qualifies_eq_false (by simp [hor]) hq
    have hstep : insertStep p = some p := by cases p <;> simp_all [insertStep, isQualified]
    rw [hstep]
    refine returns_unqualified hp hnot fun x xs => ?_
    cases xs with
    | nil => rfl
    | cons _ xs => exact mem_cons_iff hnot

/-! ### Pairs -/

variable {fields : String × String} (hf : fields.1 ≠ fields.2) {pair e₀ e₁ : Extent}
  (hpair : pair.resolve = .record (pairEntries fields e₀ e₁)) {outer : List Extent}

/-- The fields of a pair. -/
def pairPoint (fields : String × String) (a b : KeyPoint) (name : String) : KeyPoint :=
  if name = fields.1 then a else if name = fields.2 then b else .unit

/-- A path whose last two components are merged. -/
def pairPath (fields : String × String) : List KeyPoint → List KeyPoint
  | b :: a :: above => .record (pairPoint fields a b) :: above
  | path => path

/-- A path whose last component, a pair, is split. -/
def unpairPath (fields : String × String) : List KeyPoint → List KeyPoint
  | .record f :: above => f fields.2 :: f fields.1 :: above
  | path => path

/-- The paths the step of `with_levels_paired` restates: the statement about the enclosing paths is
no `Or` that names paths above those. -/
def Pairable (arm : Predicate) : Prop :=
  arm.splitQualification.1.isOr = true → arm.splitQualification.1.qualifies = false

/-- The keys the step of `with_levels_unpaired` takes apart: an arm of theirs that is an `Or` again
is constant. -/
def Unpairable (arm : Predicate) : Prop :=
  ∀ a ∈ arm.splitQualification.2.orArms, a.isOr = true → a.asBool.isSome

include hf hpair

omit hpair in
lemma lookup_pairEntries {β : Type*} {a b c : β} {k : String}
    (h : (pairEntries fields a b).lookup k = some c) :
    k = fields.1 ∧ c = a ∨ k = fields.2 ∧ c = b := by
  simpa using (mem_pairEntries hf).mp (mem_of_lookup_eq_some h)

lemma pair_exists {x : KeyPoint} (hx : InExtent pair x) :
    ∃ f, x = .record f ∧ InExtent e₀ (f fields.1) ∧ InExtent e₁ (f fields.2) := by
  obtain ⟨f, rfl, h⟩ := hx.exists_record hpair
  exact ⟨f, rfl, h _ _ (lookup_pairEntries_fst hf _ _), h _ _ (lookup_pairEntries_snd hf _ _)⟩

lemma pairPoint_inExtent {a b : KeyPoint} (ha : InExtent e₀ a) (hb : InExtent e₁ b) :
    InExtent pair (.record (pairPoint fields a b)) := by
  rw [← inExtent_resolve_iff, hpair]
  refine .record fun k e hk => ?_
  rcases lookup_pairEntries hf hk with ⟨rfl, rfl⟩ | ⟨rfl, rfl⟩
  · simpa [pairPoint] using ha
  · simpa [pairPoint, hf.symm] using hb

omit hpair in
lemma pair_over {q₀ q₁ : Predicate} (h₀ : Over [e₀] q₀) (h₁ : Over [e₁] q₁) :
    ∀ k q e, (k, q) ∈ pairEntries fields q₀ q₁ → (pairEntries fields e₀ e₁).lookup k = some e →
      Over [e] q := by
  intro k q e hq hk
  rcases (mem_pairEntries hf).mp hq with hkq | hkq <;> cases hkq
  · rw [lookup_pairEntries_fst hf] at hk
    exact Option.some.inj hk ▸ h₀
  · rw [lookup_pairEntries_snd hf] at hk
    exact Option.some.inj hk ▸ h₁

omit hpair in
lemma mem_pair {q₀ q₁ : Predicate} {f : String → KeyPoint} {above : List KeyPoint} :
    Mem (.ofRecord (pairEntries fields q₀ q₁)) (.record f :: above) ↔
      Mem q₀ [f fields.1] ∧ Mem q₁ [f fields.2] := by
  rw [mem_ofRecord]
  constructor
  · intro h
    exact ⟨h _ _ ((mem_pairEntries hf).mpr (.inl rfl)), h _ _ ((mem_pairEntries hf).mpr (.inr rfl))⟩
  · rintro ⟨h₀, h₁⟩ k q hq
    rcases (mem_pairEntries hf).mp hq with hkq | hkq <;> cases hkq
    · exact h₀
    · exact h₁

lemma pairStep_spec (hp : Over (e₁ :: e₀ :: outer) p) (hor : p.isOr = false) (hC : Pairable p) :
    Returns (pair :: outer) (fun _ => True) (pairStep fields p)
      (fun y => Mem p (unpairPath fields y)) := by
  obtain ⟨he, hh, hmem⟩ := split_spec hp (by simp [hor])
  have heover := he.resolve_left fun h => by simp at h
  obtain ⟨ha, ho, hemem⟩ := split_spec heover hC
  obtain ⟨r, hr, hrover, _, hrmem⟩ := record_returns hpair (pairEntries_ascend _ _)
    (pairEntries_keys _ _ _ _) (pair_over hf ho hh)
  obtain ⟨hover, hqmem⟩ := qualified_spec ha hrover
  refine ⟨_, by simp only [pairStep, hr]; rfl, hover, trivial, fun y hy => ?_⟩
  obtain ⟨k, ks, rfl, hk, hks⟩ := hy.exists_cons
  obtain ⟨f, rfl, _, _⟩ := pair_exists hf hpair hk
  simp only [hqmem _ ks hks, hrmem _ (inLevels_singleton.mpr hk), mem_pair hf, unpairPath, hmem,
    hemem]
  tauto

/-- An arm over the pairs is taken apart into its halves. -/
lemma splitAsRecord_spec {q : Predicate} (hq : Over [pair] q)
    (hC : q.isOr = true → q.asBool.isSome) :
    ∃ q₀ q₁, q.splitAsRecord ((pairEntries fields () ()).map (·.1)) =
        some (pairEntries fields q₀ q₁) ∧ Over [e₀] q₀ ∧ Over [e₁] q₁ ∧
      ∀ f, InExtent pair (.record f) →
        (Mem q [.record f] ↔ Mem q₀ [f fields.1] ∧ Mem q₁ [f fields.2]) := by
  cases hb : q.asBool with
  | some b =>
    refine ⟨ofBool b, ofBool b, ?_, .ofBool, .ofBool, fun f hx => ?_⟩
    · simp only [splitAsRecord, hb, pairEntries]
      split_ifs <;> rfl
    · cases b with
      | true => simpa using mem_of_isTrue hq (isTrue_iff.mpr hb) (inLevels_singleton.mpr hx)
      | false => simpa using not_mem_of_isFalse hq hb [.record f]
  | none =>
    have hor : q.isOr = false := by
      by_contra hor
      simpa [hb] using hC (by simpa using hor)
    cases hq with
    | tt | ff => simp [asBool] at hb
    | ofIntervals hown _ => simp [hpair, Extent.scalarType] at hown
    | @ofRecord _ _ es m hown hasc hkeys hm =>
      obtain rfl : pairEntries fields e₀ e₁ = es := Extent.record.inj (hpair.symm.trans hown)
      obtain ⟨q₀, q₁, rfl⟩ := exists_pairEntries hf hkeys
      refine ⟨q₀, q₁, ?_, hm _ _ _ ((mem_pairEntries hf).mpr (.inl rfl))
        (lookup_pairEntries_fst hf _ _), hm _ _ _ ((mem_pairEntries hf).mpr (.inr rfl))
        (lookup_pairEntries_snd hf _ _), fun f _ => mem_pair hf⟩
      simp only [splitAsRecord, hb]
      rw [if_pos]
      rw [pairEntries_keys () () q₀ q₁]
      refine ⟨by simp, all_eq_true.mpr fun k hk => lookup_isSome_iff_mem_keys.mpr hk⟩
    | ofOr _ _ _ => cases hor
    | ofUnion hown _ _ _ => simp [hpair] at hown
    | ofQualified hne _ _ => exact absurd rfl hne

omit hpair in
lemma lookup_filter_pairEntries {β : Type*} (a b : β) :
    ((pairEntries fields a b).filter (·.1 ≠ fields.1)).lookup fields.2 = some b := by
  simp only [pairEntries, if_neg hf]
  split_ifs <;> simp [hf.symm]

lemma unpairOne_spec {q : Predicate} (he : Encloses outer enclosing) (hq : Over [pair] q)
    (hC : q.isOr = true → q.asBool.isSome) :
    Returns (e₁ :: e₀ :: outer) (fun _ => True) (unpairOne fields enclosing q)
      (fun y => ∃ b a above, y = b :: a :: above ∧ Mem enclosing above ∧
        Mem q [.record (pairPoint fields a b)]) := by
  obtain ⟨q₀, q₁, hsplit, h₀, h₁, hmem⟩ := splitAsRecord_spec hf hpair hq hC
  obtain ⟨hover, hqmem⟩ := qualified_spec he h₀
  obtain ⟨hover', hqmem'⟩ := qualified_spec (.inr hover) h₁
  refine ⟨_, ?_, hover', trivial, fun y hy => ?_⟩
  · simp only [unpairOne, hsplit, Option.bind_eq_bind, Option.bind_some,
      lookup_pairEntries_fst hf, lookup_filter_pairEntries hf]
    rfl
  · obtain ⟨b, ys, rfl, hb, hys⟩ := hy.exists_cons
    rw [hqmem' b ys hys]
    obtain ⟨a, above, rfl, ha, habove⟩ := hys.exists_cons
    rw [hqmem a above habove]
    have hpoint := hmem _ (pairPoint_inExtent hf hpair ha hb)
    simp only [pairPoint, if_true, hf.symm, if_false] at hpoint
    rw [and_assoc, ← hpoint]
    simp

lemma unpairStep_spec [ScalarOps]
    (hl : ∀ e ∈ e₁ :: e₀ :: outer, e.WellFormed) (hp : Over (pair :: outer) p)
    (hor : p.isOr = false) (hC : Unpairable p) :
    Returns (e₁ :: e₀ :: outer) (fun _ => True) (unpairStep fields p)
      (fun y => Mem p (pairPath fields y)) := by
  obtain ⟨he, hh, hmem⟩ := split_spec hp (by simp [hor])
  refine (unionOver_spec (atoms_of_levels (by simp) hl) (by simp) fun a ha =>
    unpairOne_spec hf hpair he (hh.of_mem_orArms ha) (hC a ha)).congr fun y hy => ?_
  obtain ⟨b, ys, rfl, hb, hys⟩ := hy.exists_cons
  obtain ⟨a, above, rfl, ha, habove⟩ := hys.exists_cons
  rw [pairPath, hmem, mem_iff_orArms (p := p.splitQualification.2)]
  simp [and_left_comm]

end Steps

end Predicate

end Cambra
