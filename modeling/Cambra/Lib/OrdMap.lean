import Mathlib.Order.Lattice
import Mathlib.Data.List.Pairwise

/-!
# Ordered maps

A finite map over a linear order, kept as the list of its entries in strictly ascending
key order.  The order is a field of the structure, so an unsorted map cannot be built, and
the positional reads (the greatest entry, the greatest entry at or below a bound, the least
entry above a bound) are the ends of filtered entry lists.

Every operation comes with one lemma that says it in terms of membership: `mem_insert`,
`mem_retain`, `last?_eq_some_iff`, `floor_eq_some_iff`, `ceil_eq_some_iff` and their `none`
forms.  Users reason through these and never open the lists.
-/

/-- What is found in an ordered list comes before everything else that could have been. -/
lemma List.Pairwise.eq_or_rel_of_find? {α : Type*} {R : α → α → Prop} {p : α → Bool} {l : List α}
    {m x : α} (h : l.Pairwise R) (hm : l.find? p = some m) (hx : x ∈ l) (hp : p x = true) :
    x = m ∨ R m x := by
  obtain ⟨-, pre, post, rfl, hpre⟩ := List.find?_eq_some_iff_append.1 hm
  rcases List.mem_append.1 hx with hx | hx
  · simpa [hp] using hpre x hx
  · exact (List.mem_cons.1 hx).imp_right ((List.pairwise_cons.1 (List.pairwise_append.1 h).2.1).1 x)

/-- A finite map from a linear order, as its entries in strictly ascending key order. -/
@[ext]
structure OrdMap (α β : Type*) [LinearOrder α] where
  /-- The entries, ascending. -/
  entries : List (α × β)
  /-- Keys ascend strictly, so each key has at most one entry. -/
  sorted : entries.Pairwise (fun a b => a.1 < b.1)

namespace OrdMap

variable {α β : Type*} [LinearOrder α]

instance : Membership (α × β) (OrdMap α β) := ⟨fun m x => x ∈ m.entries⟩

variable {m : OrdMap α β} {x : α × β} {k t : α} {v : β} {l : List (α × β)}

lemma mem_def : x ∈ m ↔ x ∈ m.entries := Iff.rfl

/-- The map with no entries. -/
def empty : OrdMap α β := ⟨[], List.Pairwise.nil⟩

/-- Whether the map has no entries. -/
def isEmpty (m : OrdMap α β) : Bool := m.entries.isEmpty

/-- The entries whose key passes `p`. -/
def retain (p : α → Bool) (m : OrdMap α β) : OrdMap α β :=
  ⟨m.entries.filter (fun x => p x.1), m.sorted.filter _⟩

lemma insert_sorted (m : OrdMap α β) (k : α) (v : β) : (m.entries.filter (fun x => x.1 < k) ++
      (k, v) :: m.entries.filter (fun x => k < x.1)).Pairwise (fun a b => a.1 < b.1) := by
  refine List.pairwise_append.2
    ⟨m.sorted.filter _, List.pairwise_cons.2 ⟨?_, m.sorted.filter _⟩, ?_⟩
  · intro x hx
    simpa using (List.mem_filter.1 hx).2
  · intro x hx y hy
    have hxk : x.1 < k := by simpa using (List.mem_filter.1 hx).2
    rcases List.mem_cons.1 hy with rfl | hy
    · exact hxk
    · exact hxk.trans (by simpa using (List.mem_filter.1 hy).2)

/-- Put `v` at `k`, replacing what `k` held. -/
def insert (m : OrdMap α β) (k : α) (v : β) : OrdMap α β :=
  ⟨m.entries.filter (fun x => x.1 < k) ++ (k, v) :: m.entries.filter (fun x => k < x.1),
    m.insert_sorted k v⟩

/-- The entry at exactly `k`. -/
def get? (m : OrdMap α β) (k : α) : Option β := (m.entries.find? (fun x => x.1 = k)).map Prod.snd

/-- The entry with the greatest key. -/
def last? (m : OrdMap α β) : Option (α × β) := m.entries.getLast?

/-- The entry with the greatest key at or below `t`. -/
def floor (m : OrdMap α β) (t : α) : Option (α × β) :=
  (m.entries.filter (fun x => x.1 ≤ t)).getLast?

/-- The entry with the least key above `t`. -/
def ceil (m : OrdMap α β) (t : α) : Option (α × β) := (m.entries.filter (fun x => t < x.1)).head?

/-! ## Membership -/

@[simp] lemma not_mem_empty (x : α × β) : x ∉ (empty : OrdMap α β) := List.not_mem_nil

@[simp] lemma mem_retain {p : α → Bool} : x ∈ m.retain p ↔ x ∈ m ∧ p x.1 = true := by
  simp [mem_def, retain]

@[simp] lemma mem_insert : x ∈ m.insert k v ↔ x = (k, v) ∨ (x ∈ m ∧ x.1 ≠ k) := by
  simp only [mem_def, insert, List.mem_append, List.mem_cons, List.mem_filter, decide_eq_true_eq]
  constructor
  · rintro (⟨hx, hlt⟩ | rfl | ⟨hx, hlt⟩)
    · exact .inr ⟨hx, hlt.ne⟩
    · exact .inl rfl
    · exact .inr ⟨hx, hlt.ne'⟩
  · rintro (rfl | ⟨hx, hne⟩)
    · exact .inr (.inl rfl)
    · rcases lt_or_gt_of_ne hne with h | h
      · exact .inl ⟨hx, h⟩
      · exact .inr (.inr ⟨hx, h⟩)

lemma eq_of_mem_of_fst_eq {y : α × β} (hx : x ∈ m) (hy : y ∈ m) (h : x.1 = y.1) : x = y := by
  by_contra hne
  have : Std.Symm (fun a b : α × β => a.1 ≠ b.1) := ⟨fun _ _ hab => hab.symm⟩
  have hs : m.entries.Pairwise (fun a b => a.1 ≠ b.1) := m.sorted.imp fun hab => hab.ne
  exact hs.forall hx hy hne h

lemma get?_eq_some_iff : m.get? k = some v ↔ (k, v) ∈ m := by
  constructor
  · intro h
    obtain ⟨x, hx, rfl⟩ := Option.map_eq_some_iff.1 h
    have hk : x.1 = k := by simpa using List.find?_some hx
    subst hk
    exact List.mem_of_find?_eq_some hx
  · intro h
    cases hf : m.entries.find? (fun x => x.1 = k) with
    | none => simpa using List.find?_eq_none.1 hf _ h
    | some x =>
      have hk : x.1 = k := by simpa using List.find?_some hf
      have hx : x = (k, v) := eq_of_mem_of_fst_eq (List.mem_of_find?_eq_some hf) h hk
      simp [get?, hf, hx]

lemma isEmpty_iff : m.isEmpty = true ↔ ∀ x, x ∉ m := by
  simp [isEmpty, mem_def, List.eq_nil_iff_forall_not_mem]

/-! ## The ends of an ascending list -/

lemma getLast?_eq_some_iff_of_sorted (hl : l.Pairwise (fun a b => a.1 < b.1)) :
    l.getLast? = some x ↔ x ∈ l ∧ ∀ y ∈ l, y.1 ≤ x.1 := by
  constructor
  · intro h
    obtain ⟨l', rfl⟩ := List.getLast?_eq_some_iff.1 h
    refine ⟨by simp, fun y hy => ?_⟩
    rcases List.mem_append.1 hy with hy | hy
    · exact ((List.pairwise_append.1 hl).2.2 y hy x (by simp)).le
    · simp_all
  · rintro ⟨hx, hmax⟩
    rcases List.eq_nil_or_concat l with rfl | ⟨l', z, rfl⟩
    · simp at hx
    · rw [List.concat_eq_append] at hl hx hmax ⊢
      rcases List.mem_append.1 hx with hx' | hx'
      · have hlt := (List.pairwise_append.1 hl).2.2 x hx' z (by simp)
        exact absurd (hmax z (by simp)) (not_le.2 hlt)
      · simp_all

lemma head?_eq_some_iff_of_sorted (hl : l.Pairwise (fun a b => a.1 < b.1)) :
    l.head? = some x ↔ x ∈ l ∧ ∀ y ∈ l, x.1 ≤ y.1 := by
  cases l with
  | nil => simp
  | cons z l' =>
    have hz := (List.pairwise_cons.1 hl).1
    constructor
    · intro h
      obtain rfl : z = x := by simpa using h
      refine ⟨by simp, fun y hy => ?_⟩
      rcases List.mem_cons.1 hy with rfl | hy
      · exact le_rfl
      · exact (hz y hy).le
    · rintro ⟨hx, hmin⟩
      rcases List.mem_cons.1 hx with rfl | hx'
      · rfl
      · exact absurd (hmin z (by simp)) (not_le.2 (hz x hx'))

/-! ## Positional reads -/

lemma last?_eq_some_iff : m.last? = some x ↔ x ∈ m ∧ ∀ y ∈ m, y.1 ≤ x.1 :=
  getLast?_eq_some_iff_of_sorted m.sorted

lemma last?_eq_none_iff : m.last? = none ↔ ∀ x, x ∉ m := by
  simp [last?, mem_def, List.eq_nil_iff_forall_not_mem]

lemma floor_eq_some_iff :
    m.floor t = some x ↔ (x ∈ m ∧ x.1 ≤ t) ∧ ∀ y ∈ m, y.1 ≤ t → y.1 ≤ x.1 := by
  rw [floor, getLast?_eq_some_iff_of_sorted (m.sorted.filter _)]
  simp [mem_def]

lemma floor_eq_none_iff : m.floor t = none ↔ ∀ y ∈ m, t < y.1 := by simp [floor, mem_def]

lemma ceil_eq_some_iff : m.ceil t = some x ↔ (x ∈ m ∧ t < x.1) ∧ ∀ y ∈ m, t < y.1 → x.1 ≤ y.1 := by
  rw [ceil, head?_eq_some_iff_of_sorted (m.sorted.filter _)]
  simp [mem_def]

lemma ceil_eq_none_iff : m.ceil t = none ↔ ∀ y ∈ m, y.1 ≤ t := by simp [ceil, mem_def]

/-- Two maps that agree on the entries at or below `t` have the same floor there. -/
lemma floor_congr {m' : OrdMap α β} (h : ∀ y, y.1 ≤ t → (y ∈ m ↔ y ∈ m')) :
    m.floor t = m'.floor t := by
  cases hf : m'.floor t with
  | none =>
    rw [floor_eq_none_iff] at hf ⊢
    intro y hy
    by_contra hle
    exact hle (hf y ((h y (not_lt.1 hle)).1 hy))
  | some x =>
    rw [floor_eq_some_iff] at hf ⊢
    obtain ⟨⟨hx, hxt⟩, hmax⟩ := hf
    exact ⟨⟨(h x hxt).2 hx, hxt⟩, fun y hy hyt => hmax y ((h y hyt).1 hy) hyt⟩

/-- Where nothing lies above `t`, the floor there is the last entry. -/
lemma floor_eq_last? (h : ∀ y ∈ m, y.1 ≤ t) : m.floor t = m.last? := by
  have hfil : m.entries.filter (fun x => x.1 ≤ t) = m.entries :=
    List.filter_eq_self.2 fun y hy => by simpa using h y hy
  rw [floor, last?, hfil]

lemma last?_insert (h : ∀ y ∈ m, y.1 ≤ k) : (m.insert k v).last? = some (k, v) := by
  refine last?_eq_some_iff.2 ⟨by simp, fun y hy => ?_⟩
  rcases mem_insert.1 hy with rfl | ⟨hy, -⟩
  · exact le_rfl
  · exact h y hy

/-- A floor below the inserted key does not see it. -/
lemma floor_insert_of_lt (h : t < k) : (m.insert k v).floor t = m.floor t := by
  refine floor_congr fun y hy => ?_
  have hne : y.1 ≠ k := (hy.trans_lt h).ne
  constructor
  · intro hm
    rcases mem_insert.1 hm with rfl | ⟨hm, -⟩
    · exact absurd rfl hne
    · exact hm
  · exact fun hm => mem_insert.2 (.inr ⟨hm, hne⟩)

end OrdMap
