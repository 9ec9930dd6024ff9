import Cambra.Tiling.IntervalSets
import Cambra.Tiling.Value

/-!
# Predicates: regions of keys and paths

The `Predicate` type of `predicate.rs` and its operations.  A predicate names a region of the
keys of one level, or of the paths through several (`ofQualified`).  Everything that can panic
answers in `Option`, where `none` is a panic; the operations that call each other are one mutual
block, so `none` is also what a call that never returns would be.

Paths and levels are written innermost first: a path is `key :: above`, which is how every
function here takes one apart (`split_last`).

A hash map is kept as its entries in the order of their names, a `TagMap` in the order of its
tags.  Interval sets carry their scalar type; the source reads it off a bound (`sample`).
-/

namespace Cambra

/-- A region of values or paths. -/
inductive Predicate where
  /-- `True`. -/
  | tt
  /-- `False`. -/
  | ff
  /-- An ordered scalar key's admitted values. -/
  | ofIntervals (τ : ScalarType) (set : IntervalSet τ.Val)
  /-- The AND of each field's predicate. -/
  | ofRecord (fields : List (String × Predicate))
  /-- Any value accepted by any arm. -/
  | ofOr (arms : List Predicate)
  /-- Payload predicates for named tags, with `rest` for every unnamed tag. -/
  | ofUnion (tags : List (FieldKey × Predicate)) (rest : Bool)
  /-- Keys admitted by `here` under paths admitted by `enclosing`. -/
  | ofQualified (enclosing here : Predicate)

lemma sizeOf_snd_lt_of_mem {α β : Type*} [SizeOf α] [SizeOf β] {xs : List (α × β)} {kp : α × β}
    (h : kp ∈ xs) : sizeOf kp.2 < sizeOf xs := by
  have := List.sizeOf_lt_of_mem h
  obtain ⟨k, p⟩ := kp
  simp only [Prod.mk.sizeOf_spec] at this ⊢
  omega

section Inside

variable {p enclosing here : Predicate} {arms : List Predicate} {fields : List (String × Predicate)}
  {tags : List (FieldKey × Predicate)} {rest : Bool}

lemma Predicate.sizeOf_arm_lt (h : p ∈ arms) : sizeOf p < sizeOf (Predicate.ofOr arms) := by
  have := List.sizeOf_lt_of_mem h
  simp only [Predicate.ofOr.sizeOf_spec]
  omega

lemma Predicate.sizeOf_field_lt {kp : String × Predicate} (h : kp ∈ fields) :
    sizeOf kp.2 < sizeOf (Predicate.ofRecord fields) := by
  have := sizeOf_snd_lt_of_mem h
  simp only [Predicate.ofRecord.sizeOf_spec]
  omega

lemma Predicate.sizeOf_tag_lt {kp : FieldKey × Predicate} (h : kp ∈ tags) :
    sizeOf kp.2 < sizeOf (Predicate.ofUnion tags rest) := by
  have := sizeOf_snd_lt_of_mem h
  simp only [Predicate.ofUnion.sizeOf_spec]
  omega

lemma Predicate.sizeOf_enclosing_lt :
    sizeOf enclosing < sizeOf (Predicate.ofQualified enclosing here) := by
  simp only [Predicate.ofQualified.sizeOf_spec]
  omega

lemma Predicate.sizeOf_here_lt : sizeOf here < sizeOf (Predicate.ofQualified enclosing here) := by
  simp only [Predicate.ofQualified.sizeOf_spec]
  omega

end Inside

/-- Induction over a predicate and everything inside it. -/
@[elab_as_elim, induction_eliminator]
theorem Predicate.induction {motive : Predicate → Prop} (tt : motive .tt) (ff : motive .ff)
    (ofIntervals : ∀ τ set, motive (.ofIntervals τ set))
    (ofRecord : ∀ fields, (∀ kp ∈ fields, motive kp.2) → motive (.ofRecord fields))
    (ofOr : ∀ arms, (∀ p ∈ arms, motive p) → motive (.ofOr arms))
    (ofUnion : ∀ tags rest, (∀ kp ∈ tags, motive kp.2) → motive (.ofUnion tags rest))
    (ofQualified : ∀ enclosing here, motive enclosing → motive here →
      motive (.ofQualified enclosing here)) : ∀ p, motive p
  | .tt => tt
  | .ff => ff
  | .ofIntervals τ set => ofIntervals τ set
  | .ofRecord fields => ofRecord fields fun kp _ =>
      Predicate.induction tt ff ofIntervals ofRecord ofOr ofUnion ofQualified kp.2
  | .ofOr arms => ofOr arms fun p _ =>
      Predicate.induction tt ff ofIntervals ofRecord ofOr ofUnion ofQualified p
  | .ofUnion tags rest => ofUnion tags rest fun kp _ =>
      Predicate.induction tt ff ofIntervals ofRecord ofOr ofUnion ofQualified kp.2
  | .ofQualified enclosing here => ofQualified enclosing here
      (Predicate.induction tt ff ofIntervals ofRecord ofOr ofUnion ofQualified enclosing)
      (Predicate.induction tt ff ofIntervals ofRecord ofOr ofUnion ofQualified here)
termination_by p => sizeOf p
decreasing_by
  · exact Predicate.sizeOf_field_lt ‹kp ∈ fields›
  · exact Predicate.sizeOf_arm_lt ‹p ∈ arms›
  · exact Predicate.sizeOf_tag_lt ‹kp ∈ tags›
  · exact Predicate.sizeOf_enclosing_lt
  · exact Predicate.sizeOf_here_lt

namespace Predicate

/-- Structural equality. -/
def beq : Predicate → Predicate → Bool
  | .tt, .tt => true
  | .ff, .ff => true
  | .ofIntervals τ s, .ofIntervals σ t => if h : σ = τ then s == h ▸ t else false
  | .ofRecord m, .ofRecord n =>
    m.map (·.1) == n.map (·.1) && (m.zip n).attach.all fun x => x.1.1.2.beq x.1.2.2
  | .ofOr xs, .ofOr ys => xs.length == ys.length && (xs.zip ys).attach.all fun x => x.1.1.beq x.1.2
  | .ofUnion m r, .ofUnion n s =>
    r == s && m.map (·.1) == n.map (·.1) && (m.zip n).attach.all fun x => x.1.1.2.beq x.1.2.2
  | .ofQualified e h, .ofQualified e' h' => e.beq e' && h.beq h'
  | _, _ => false
termination_by p => sizeOf p
decreasing_by
  · exact Predicate.sizeOf_field_lt (List.of_mem_zip x.2).1
  · exact Predicate.sizeOf_arm_lt (List.of_mem_zip x.2).1
  · exact Predicate.sizeOf_tag_lt (List.of_mem_zip x.2).1
  · exact Predicate.sizeOf_enclosing_lt
  · exact Predicate.sizeOf_here_lt

lemma eq_of_zip_all {α β : Type*} {m n : List (α × β)} (hkeys : m.map (·.1) = n.map (·.1))
    (h : ∀ x ∈ m.zip n, x.1.2 = x.2.2) : m = n := by
  induction m generalizing n with
  | nil => simpa using hkeys.symm
  | cons a m ih =>
    cases n with
    | nil => simp at hkeys
    | cons b n =>
      simp only [List.map_cons, List.cons.injEq] at hkeys
      have hab := h (a, b) (by simp)
      rw [ih hkeys.2 fun x hx => h x (by simp [hx]), Prod.ext hkeys.1 hab]

lemma eq_of_beq {p q : Predicate} (h : p.beq q = true) : p = q := by
  induction p generalizing q with
  | tt | ff => cases q <;> simp_all [beq]
  | ofIntervals τ s =>
    cases q <;> simp only [beq, Bool.false_eq_true] at h
    split at h
    · subst_vars
      simpa using h
    · simp at h
  | ofRecord m ih =>
    cases q <;> simp only [beq, Bool.false_eq_true, Bool.and_eq_true, beq_iff_eq,
      List.all_eq_true] at h
    rename_i n
    refine congrArg _ (eq_of_zip_all h.1 fun x hx => ?_)
    exact ih _ (List.of_mem_zip hx).1 (h.2 ⟨x, hx⟩ (List.mem_attach _ _))
  | ofOr xs ih =>
    cases q <;> simp only [beq, Bool.false_eq_true, Bool.and_eq_true, beq_iff_eq,
      List.all_eq_true] at h
    rename_i ys
    refine congrArg _ (List.ext_getElem h.1 fun i hi hi' => ?_)
    have hx : (xs[i], ys[i]) ∈ xs.zip ys := by
      rw [← List.getElem_zip (h := by simp; omega)]
      exact List.getElem_mem _
    exact ih _ (List.getElem_mem hi) (h.2 ⟨_, hx⟩ (List.mem_attach _ _))
  | ofUnion m r ih =>
    cases q <;> simp only [beq, Bool.false_eq_true, Bool.and_eq_true, beq_iff_eq,
      List.all_eq_true] at h
    rename_i n s
    obtain ⟨⟨rfl, hkeys⟩, hall⟩ := h
    congr 1
    refine eq_of_zip_all hkeys fun x hx => ?_
    exact ih _ (List.of_mem_zip hx).1 (hall ⟨x, hx⟩ (List.mem_attach _ _))
  | ofQualified e k ihe ihk =>
    cases q <;> simp only [beq, Bool.false_eq_true, Bool.and_eq_true] at h
    rw [ihe h.1, ihk h.2]

lemma fst_eq_snd_of_mem_zip_self {α : Type*} {xs : List α} {x : α × α} (h : x ∈ xs.zip xs) :
    x.1 = x.2 := by
  induction xs with
  | nil => simp at h
  | cons a xs ih =>
    rcases List.mem_cons.mp h with rfl | h
    · rfl
    · exact ih h

lemma beq_self (p : Predicate) : p.beq p = true := by
  induction p with
  | tt | ff | ofIntervals => simp [beq]
  | ofRecord _ ih | ofOr _ ih | ofUnion _ _ ih =>
    simp only [beq, BEq.rfl, Bool.true_and, List.all_eq_true]
    rintro ⟨x, hx⟩ _
    rw [← fst_eq_snd_of_mem_zip_self hx]
    exact ih _ (List.of_mem_zip hx).1
  | ofQualified e k ihe ihk => simp [beq, ihe, ihk]

instance : DecidableEq Predicate := fun p q =>
  decidable_of_iff (p.beq q = true) ⟨eq_of_beq, fun h => h ▸ beq_self p⟩

/-! ## Reading a predicate -/

section Read

variable {V : Type*}

/-- A value `set` names, from which its type is read. -/
def sample (set : IntervalSet V) : Option V :=
  set.findSome? fun iv => (iv.left <|> iv.right).map (·.value)

/-- `set` holds every value of its type, whose range is `range`. -/
def isWhole [DecidableEq V] (set : IntervalSet V) (range : Option (Interval V)) : Bool :=
  match set, range with
  | [only], some range => only == range
  | [only], none => only.left.isNone && only.right.isNone
  | _, _ => false

end Read

/-- `some true` where this admits every value, `some false` where it admits none. -/
def asBool : Predicate → Option Bool
  | .ff => some false
  | .tt => some true
  | .ofRecord m =>
    let fields := m.map fun kp => kp.2.asBool
    if fields.all (· == some true) then some true
    else if fields.any (· == some false) then some false
    else none
  | .ofIntervals τ i =>
    if i.isEmpty then some false
    else if isWhole i ((sample i).map fun _ => typeRange τ) then some true
    else none
  | .ofOr arms =>
    let arms := arms.map fun p => p.asBool
    if arms.any (· == some true) then some true
    else if arms.all (· == some false) then some false
    else none
  | .ofUnion tags rest =>
    let tags := tags.map fun kp => kp.2.asBool
    if tags.all (· == some rest) then some rest else none
  | .ofQualified enclosing here =>
    if enclosing.asBool == some false || here.asBool == some false then some false else none
termination_by p => sizeOf p
decreasing_by
  · exact Predicate.sizeOf_field_lt ‹kp ∈ m›
  · exact Predicate.sizeOf_arm_lt ‹p ∈ _›
  · exact Predicate.sizeOf_tag_lt ‹kp ∈ _›
  · exact Predicate.sizeOf_enclosing_lt
  · exact Predicate.sizeOf_here_lt

alias asBool_ofRecord := asBool.eq_3

alias asBool_ofOr := asBool.eq_5

/-- Whether the spelling shows that this admits everything. -/
def isTrue (p : Predicate) : Bool := p.asBool.getD false

/-- Whether this admits nothing. -/
def isFalse (p : Predicate) : Bool := !p.asBool.getD true

/-- Whether this predicate names an enclosing path anywhere in it. -/
def qualifies : Predicate → Bool
  | .ofQualified _ _ => true
  | .ofOr arms => (arms.map fun p => p.qualifies).any id
  | _ => false
termination_by p => sizeOf p
decreasing_by
  exact Predicate.sizeOf_arm_lt ‹p ∈ _›

/-- The enclosing paths a predicate is qualified by, and the keys it admits under them. -/
def splitQualification : Predicate → Predicate × Predicate
  | .ofQualified enclosing here => (enclosing, here)
  | unqualified => (.tt, unqualified)

/-- `True` or `False`. -/
def ofBool : Bool → Predicate
  | true => .tt
  | false => .ff

/-- What a union predicate admits under `tag`: its own predicate, or `rest`. -/
def atTag (tags : List (FieldKey × Predicate)) (rest : Bool) (tag : FieldKey) : Predicate :=
  (tags.lookup tag).getD (ofBool rest)

/-- Whether `value`, alone, is admitted; a predicate naming an enclosing path is refused. -/
def contains (self : Predicate) (value : Value) : Option Bool :=
  match self with
  | .tt => some true
  | .ff => some false
  | .ofIntervals τ s =>
    match value with
    | .scalar σ v => if h : σ = τ then some (holds s (h ▸ v)) else some false
    | _ => some false
  | .ofRecord m =>
    match value with
    | .record fields => m.allM fun kp =>
        match fields.lookup kp.1 with
        | some v => kp.2 |>.contains v
        | none => some false
    | _ => some false
  | .ofOr arms => arms.anyM fun a => a |>.contains value
  | .ofUnion tags rest =>
    match value with
    | .union tag inner =>
      match tags.lookup tag with
      | some p => p |>.contains inner
      | none => some rest
    | _ => some false
  | .ofQualified _ _ => none
partial_fixpoint

alias contains_def := contains.eq_def

/-- Whether the node at `path` is admitted. -/
def containsPath (self : Predicate) (path : List Value) : Option Bool :=
  match self with
  | .tt => some true
  | .ff => some false
  | .ofQualified enclosing here =>
    match path with
    | [] => some false
    | key :: above => do
      let above ← enclosing |>.containsPath above
      if above then here.contains key else some false
  | .ofOr arms => arms.anyM fun a => a |>.containsPath path
  | unqualified =>
    match path with
    | [] => some false
    | key :: _ => unqualified.contains key
partial_fixpoint

alias containsPath_def := containsPath.eq_def

/-- Whether this predicate makes sense as a filter over the paths through `extents`. -/
def isApplicableOver : Predicate → List Extent → Bool
  | .ofQualified enclosing here, extents =>
    match extents with
    | [] => false
    | own :: above => !above.isEmpty && enclosing.isApplicableOver above &&
        here.isApplicableOver [own]
  | .ofOr arms, extents => (arms.map fun p => p.isApplicableOver extents).all id
  | .tt, extents => !extents.isEmpty
  | .ff, extents => !extents.isEmpty
  | .ofIntervals τ s, extents =>
    match extents with
    | [] => false
    | own :: _ =>
      -- an interval set that names no value at its start is taken for an empty one
      (s.head?.bind fun iv => (iv.left <|> iv.right)).isNone || own.resolve.scalarType == some τ
  | .ofRecord m, extents =>
    match extents with
    | [] => false
    | own :: _ =>
      match own.resolve with
      | .record es => m.length == es.length &&
          (m.map fun kp => (es.lookup kp.1).any fun e => kp.2.isApplicableOver [e]).all id
      | _ => false
  | .ofUnion tags _, extents =>
    match extents with
    | [] => false
    | own :: _ =>
      match own.resolve with
      | .union arms =>
        (tags.map fun kp => (arms.lookup kp.1).any fun e => kp.2.isApplicableOver [e]).all id
      | _ => false
termination_by p => sizeOf p
decreasing_by
  · exact Predicate.sizeOf_enclosing_lt
  · exact Predicate.sizeOf_here_lt
  · exact Predicate.sizeOf_arm_lt ‹p ∈ _›
  · exact Predicate.sizeOf_field_lt ‹kp ∈ m›
  · exact Predicate.sizeOf_tag_lt ‹kp ∈ _›

end Predicate

/-! ## Building predicates -/

/-- Arms in any order as a `TagMap`; a tag that repeats is refused. -/
def TagMap.fromArms {T : Type} (arms : List (FieldKey × T)) : Option (List (FieldKey × T)) :=
  let arms := arms.mergeSort fun a b => a.1 ≤ b.1
  if (arms.zip arms.tail).all fun w => w.1.1 ≠ w.2.1 then some arms else none

namespace Predicate

/-- A union predicate in canonical form: `tags` for the tags named, `rest` for every other. -/
def tagged (tags : List (FieldKey × Predicate)) (rest : Bool) : Option Predicate :=
  let kept := tags.filter fun kp => kp.2.asBool != some rest
  match kept.isEmpty, rest with
  | true, true => some .tt
  | true, false => some .ff
  | false, _ => (TagMap.fromArms kept).map (.ofUnion · rest)

/-- `ofQualified` in canonical form. -/
def qualified (enclosing here : Predicate) : Predicate :=
  if enclosing.isFalse || here.isFalse then .ff
  else if enclosing.isTrue then here
  else .ofQualified enclosing here

end Predicate

/-- The shape of a componentwise predicate: a record's fields, or an enclosing path and a key. -/
inductive Componentwise where
  | record (names : List String)
  | qualified

namespace Componentwise

/-- `a` and `b` read as componentwise predicates of one shape, component by component, or
`some none` where neither is componentwise.  Records of two schemas are refused. -/
def of (a b : Predicate) : Option (Option (Componentwise × List Predicate × List Predicate)) :=
  match a, b with
  | .ofQualified _ _, _ | _, .ofQualified _ _ =>
    let (q₁, k₁) := a.splitQualification
    let (q₂, k₂) := b.splitQualification
    some (some (.qualified, [q₁, k₁], [q₂, k₂]))
  | .ofRecord m₁, .ofRecord m₂ =>
    if m₁.length = m₂.length ∧ m₂.all fun kp => (m₁.lookup kp.1).isSome then do
      let names := m₁.map (·.1)
      let first ← names.mapM fun n => m₁.lookup n
      let second ← names.mapM fun n => m₂.lookup n
      return some (.record names, first, second)
    else none
  | _, _ => some none

/-- The componentwise predicate with these components, in canonical form. -/
def build (shape : Componentwise) (components : List Predicate) : Option Predicate :=
  if components.any Predicate.isFalse then some .ff
  else match shape with
    | .record names => some (.ofRecord (names.zip components))
    | .qualified =>
      match components with
      | [enclosing, here] => some (.qualified enclosing here)
      | _ => none

end Componentwise

/-- The interval operations, on the values of every scalar type. -/
abbrev ScalarOps := ∀ τ : ScalarType, IntervalOps τ.Val

namespace Predicate

/-- A record predicate over `fields`, in canonical form. -/
def record (fields : List (String × Predicate)) : Option Predicate :=
  (Componentwise.record (fields.map (·.1))).build (fields.map (·.2))

end Predicate

section Ops

variable [ScalarOps]

namespace Predicate

/-- The predicate admitting exactly `set`, in canonical form: clamped to the range of its type,
with `True` and `False` spelled so. -/
def intervals (τ : ScalarType) (set : IntervalSet τ.Val) : Option Predicate := do
  let range := (sample set).map fun _ => typeRange τ
  let set := match range with
    | some range => IntervalOps.intersection set [range]
    | none => set
  let set ← canonicalRuns set
  if set.isEmpty then some .ff
  else if isWhole set range then some .tt
  else some (.ofIntervals τ set)

/-- The tags two union predicates name between them, in order. -/
def namedTags (ps qs : List (FieldKey × Predicate)) : List FieldKey :=
  ((ps.map (·.1) ++ qs.map (·.1)).mergeSort (· ≤ ·)).dedup

/-- The arms of `arms` with any nested `Or` spread out, one level down. -/
def spreadArms (arms : List Predicate) : List Predicate := arms.flatMap fun
    | .ofOr inner => inner
    | other => [other]

/-- The union of the arms `flatten_or` is left with; it takes for granted that one is. -/
def ofReduced : List Predicate → Option Predicate
  | [] => none
  | [one] => some one
  | reduced => some (.ofOr reduced)

end Predicate

-- `|>.` and `unop%` keep source positions out of the terms the recursive calls elaborate to
open Predicate in
mutual

/-- The predicate that admits exactly the values accepted by both `self` and `other`. -/
def Predicate.intersect (self other : Predicate) : Option Predicate :=
  match self, other with
  | .tt, p => some p
  | p, .tt => some p
  | .ff, _ => some .ff
  | _, .ff => some .ff
  | .ofIntervals τ a, .ofIntervals σ b =>
    if h : σ = τ then intervals τ (IntervalOps.intersection a (h ▸ b)) else none
  | .ofOr arms, _ => do unop% Predicate.flattenOr (← arms.mapM fun a => a |>.intersect other)
  | _, .ofOr arms => do unop% Predicate.flattenOr (← arms.mapM fun a => self |>.intersect a)
  | .ofUnion ps pr, .ofUnion qs qr => do
    let tags ← (namedTags ps qs).mapM fun tag => do
      return (tag, ← atTag ps pr tag |>.intersect (atTag qs qr tag))
    let rest ← (← ofBool pr |>.intersect (ofBool qr)).asBool
    tagged (← TagMap.fromArms tags) rest
  | a, b => do
    match ← Componentwise.of a b with
    | some (shape, first, second) =>
      shape.build (← (first.zip second).mapM fun pq => pq.1 |>.intersect pq.2)
    | none => none
partial_fixpoint

/-- The predicate that admits the values in `self` but not in `other`. -/
def Predicate.minus (self other : Predicate) : Option Predicate :=
  if other.isFalse then some self
  else if other.isTrue then some .ff
  else if self.isFalse then some .ff
  else match self, other with
  | .ofIntervals τ a, .ofIntervals σ b =>
    if h : σ = τ then intervals τ (IntervalOps.difference a (h ▸ b)) else none
  | s, .ofIntervals τ i =>
    if s.isTrue then intervals τ (IntervalOps.complement i)
    else s |>.minusByShape (.ofIntervals τ i)
  | s, o => s |>.minusByShape o
partial_fixpoint

/-- The cases of `minus` that take a predicate apart. -/
def Predicate.minusByShape (self other : Predicate) : Option Predicate :=
  match self, other with
  | .ofOr arms, _ => do unop% Predicate.flattenOr (← arms.mapM fun a => a |>.minus other)
  | s, .ofOr arms => arms.foldlM (fun res arm => res |>.minus arm) s
  | .ofUnion ps pr, .ofUnion qs qr => do
    let tags ← (namedTags ps qs).mapM fun tag => do
      return (tag, ← atTag ps pr tag |>.minus (atTag qs qr tag))
    let rest ← (← ofBool pr |>.minus (ofBool qr)).asBool
    tagged (← TagMap.fromArms tags) rest
  | .tt, .ofUnion tags rest => do
    let tags ← tags.mapM fun kp => do return (kp.1, ← Predicate.tt |>.minus kp.2)
    tagged tags !rest
  | .tt, .ofRecord m => ofRecord (m.map fun kp => (kp.1, .tt)) |>.minus other
  | a, b => do
    match ← Componentwise.of a b with
    | some (shape, first, second) => shape |>.minus first second
    | none => none
partial_fixpoint

/-- The predicate that admits exactly the values accepted by either `self` or `other`. -/
def Predicate.union (self other : Predicate) : Option Predicate :=
  match self, other with
  | .tt, _ => some .tt
  | _, .tt => some .tt
  | .ff, p => some p
  | p, .ff => some p
  | .ofIntervals τ a, .ofIntervals σ b =>
    if h : σ = τ then intervals τ (IntervalOps.union a (h ▸ b)) else none
  | .ofOr arms, _ => unop% Predicate.flattenOr (arms ++ [other])
  | _, .ofOr arms => unop% Predicate.flattenOr (self :: arms)
  | .ofUnion ps pr, .ofUnion qs qr => do
    let tags ← (namedTags ps qs).mapM fun tag => do
      return (tag, ← atTag ps pr tag |>.union (atTag qs qr tag))
    let rest ← (← ofBool pr |>.union (ofBool qr)).asBool
    tagged (← TagMap.fromArms tags) rest
  | a, b => do
    match ← Componentwise.of a b with
    | some (shape, first, second) =>
      match ← shape |>.join first second with
      | some one => some one
      | none => unop% Predicate.flattenOr [a, b]
    | none => none
partial_fixpoint

/-- Whether every value admitted by `other` is also admitted by `self`. -/
def Predicate.subsumes (self other : Predicate) : Option Bool :=
  if other.isFalse then some true
  else if self.isTrue then some true
  else match self, other with
  | .ofIntervals τ a, .ofIntervals σ b =>
    if h : σ = τ then some (!hasDifference (h ▸ b) a) else none
  | _, .ofOr arms => arms.allM fun a => self |>.subsumes a
  | .ofOr arms, _ => do
    if ← arms.anyM fun a => a |>.subsumes other then some true
    else return (← other |>.minus self).isFalse
  | .ofUnion ps pr, .ofUnion qs qr =>
    if pr || !qr then
      (ps.map (·.1) ++ qs.map (·.1)).allM fun tag => atTag ps pr tag |>.subsumes (atTag qs qr tag)
    else some false
  | a, b => do
    match ← Componentwise.of a b with
    | some (_, first, second) => (first.zip second).allM fun pq => pq.1 |>.subsumes pq.2
    | none => return (← other |>.minus self).isFalse
partial_fixpoint

/-- Whether two predicates admit the same values, whatever each is spelled as. -/
def Predicate.sameRegion (a b : Predicate) : Option Bool :=
  if a = b then some true
  else do
    if ← a |>.subsumes b then b |>.subsumes a else some false
partial_fixpoint

/-- The one componentwise predicate `a ∪ b` is, where there is one (`Componentwise::join`). -/
def Componentwise.join (shape : Componentwise) (a b : List Predicate) :
    Option (Option Predicate) := do
  let differing ← (a.zip b).zipIdx.filterM fun x => do return !(← x.1.1 |>.sameRegion x.1.2)
  match differing with
  | [] => return some (← shape.build a)
  | [x] => do
    let component ← x.1.1 |>.union x.1.2
    return some (← shape.build (a.set x.2 component))
  | _ => some none
partial_fixpoint

/-- `a ∖ b` as a staircase (`Componentwise::minus`). -/
def Componentwise.minus (shape : Componentwise) (a b : List Predicate) : Option Predicate := do
  let steps ← (a.zip b).zipIdx.mapM fun x => do
    let components ← (a.zip b).zipIdx.mapM fun y =>
      if y.2 < x.2 then y.1.1 |>.intersect y.1.2
      else if y.2 = x.2 then y.1.1 |>.minus y.1.2
      else some y.1.1
    shape.build components
  let steps := steps.filter fun step => !step.isFalse
  if steps.isEmpty then some .ff else unop% Predicate.flattenOr steps
partial_fixpoint

/-- The one componentwise predicate two predicates' union is, where there is one. -/
def Predicate.join (a b : Predicate) : Option (Option Predicate) := do
  match ← Componentwise.of a b with
  | some (shape, first, second) => shape |>.join first second
  | none => some none
partial_fixpoint

/-- `arm` put among `joined`: joined with the first arm it joins with, which goes round again,
and placed at the earliest place it came from otherwise. -/
def Predicate.joinInto (arm : Predicate) (slot : ℕ) (joined : List Predicate) :
    Option (List Predicate) := do
  match ← joined.zipIdx.findSomeM? fun x => do return (← arm |>.join x.1).map (x.2, ·) with
  | some (place, merged) => merged |>.joinInto (min slot place) (joined.eraseIdx place)
  | none => some (joined.insertIdx (min slot joined.length) arm)
partial_fixpoint

/-- `flat` without the arms another arm subsumes. -/
def Predicate.withoutSubsumed (flat : List Predicate) : Option (List Predicate) := do
  let keep ← flat.zipIdx.mapM fun x => do
    return !(← flat.zipIdx.anyM fun y => do
      if y.2 = x.2 then some false
      else if ← y.1 |>.subsumes x.1 then
        if y.2 < x.2 then some true else return !(← x.1 |>.subsumes y.1)
      else some false)
  return ((flat.zip keep).filter (·.2)).map (·.1)
partial_fixpoint

/-- A predicate from a list of arms: nested `Or`s are spread out, arms that join into one
componentwise predicate are joined, and subsumed arms are dropped.  No arms are refused. -/
def Predicate.flattenOr (arms : List Predicate) : Option Predicate := do
  let flat := spreadArms arms
  if flat.isEmpty then none
  else do
    let joined ← flat.foldlM (fun joined arm => arm |>.joinInto joined.length joined) []
    ofReduced (← unop% Predicate.withoutSubsumed joined)
partial_fixpoint

end

namespace Predicate

/-! The equations the operations are unfolded by. -/

alias intersect_def := intersect.eq_def

alias minus_def := minus.eq_def

alias minusByShape_def := minusByShape.eq_def

alias union_def := union.eq_def

alias subsumes_def := subsumes.eq_def

alias sameRegion_def := sameRegion.eq_def

alias joinComponents_def := Componentwise.join.eq_def

alias minusComponents_def := Componentwise.minus.eq_def

alias join_def := join.eq_def

alias joinInto_def := joinInto.eq_def

alias withoutSubsumed_def := withoutSubsumed.eq_def

alias flattenOr_def := flattenOr.eq_def

/-- The union of `arms`: `False` for none. -/
def unionAll (arms : List Predicate) : Option Predicate :=
  if arms.isEmpty then some .ff else flattenOr arms

end Predicate

end Ops

end Cambra
