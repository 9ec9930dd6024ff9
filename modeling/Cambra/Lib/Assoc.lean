import Mathlib.Data.List.Dedup
import Mathlib.Data.List.Sort

/-!
# Association lists kept in the order of their keys

A finite map is kept as the list of its entries, keys strictly ascending (`KeysAscend`).  Then
`List.lookup` finds exactly the entries of the list, and two maps of one key set list their keys
alike.

`collect` gathers entries into such a map, the last entry of a key winning.  Entry lists that agree
key by key, with related values (`SameKey`), are gathered into maps that agree likewise
(`forall₂_collect`), so a traversal of the values and the gathering commute.
-/

namespace Cambra

open List

variable {α β γ : Type*}

/-- The keys of the entries strictly ascend. -/
def KeysAscend [LT α] (xs : List (α × β)) : Prop := (xs.map (·.1)).Pairwise (· < ·)

variable {k k' : α} {v : β} {xs : List (α × β)} {ys : List (α × γ)} {R : β → γ → Prop}

section Lookup

variable [BEq α] [LawfulBEq α]

lemma lookup_cons_of_ne (h : k ≠ k') (v : β) : ((k', v) :: xs).lookup k = xs.lookup k := by
  rw [lookup_cons, beq_eq_false_iff_ne.mpr h]

lemma lookup_eq_some_iff_mem (h : (xs.map (·.1)).Nodup) : xs.lookup k = some v ↔ (k, v) ∈ xs := by
  induction xs with
  | nil => simp
  | cons kv xs ih =>
    obtain ⟨k', v'⟩ := kv
    obtain ⟨hk', hnodup⟩ := nodup_cons.mp h
    rw [lookup_cons]
    by_cases hk : k = k'
    · subst hk
      have hnot : (k, v) ∉ xs := fun hmem => hk' (mem_map_of_mem (f := (·.1)) hmem)
      simp [hnot, eq_comm]
    · have hne : (k == k') = false := beq_eq_false_iff_ne.mpr hk
      simp [hne, hk, ih hnodup]

lemma lookup_isSome_iff_mem_keys : (xs.lookup k).isSome ↔ k ∈ xs.map (·.1) := by
  simp only [lookup_isSome_iff, beq_iff_eq, mem_map]
  exact exists_congr fun kv => and_congr_right fun _ => eq_comm

lemma lookup_eq_none_iff_not_mem_keys : xs.lookup k = none ↔ k ∉ xs.map (·.1) := by
  rw [← lookup_isSome_iff_mem_keys, Option.not_isSome_iff_eq_none]

lemma mem_of_lookup_eq_some (h : xs.lookup k = some v) : (k, v) ∈ xs := by
  obtain ⟨l₁, l₂, rfl, _⟩ := lookup_eq_some_iff.mp h
  simp

/-- Maps of one key set have entries at the same keys. -/
lemma lookup_map_entry (f : α → β → γ) (xs : List (α × β)) (k : α) :
    (xs.map fun kv => (kv.1, f kv.1 kv.2)).lookup k = (xs.lookup k).map (f k) := by
  induction xs with
  | nil => rfl
  | cons kv xs ih =>
    obtain ⟨k', v⟩ := kv
    by_cases hk : k = k'
    · subst hk
      simp
    · rw [map_cons, lookup_cons_of_ne hk, lookup_cons_of_ne hk, ih]

lemma lookup_filter_key (p : α → Bool) :
    (xs.filter fun kv => p kv.1).lookup k = if p k then xs.lookup k else none := by
  induction xs with
  | nil => simp
  | cons a xs ih =>
    obtain ⟨k₀, v⟩ := a
    by_cases hk : k = k₀
    · subst hk
      by_cases hp : p k <;> simp [hp, ih]
    · by_cases hp : p k₀ <;> simp [hp, lookup_cons_of_ne hk, ih]

lemma lookup_filter (h : (xs.map (·.1)).Nodup) (p : α × β → Bool) :
    (xs.filter p).lookup k = (xs.lookup k).filter fun v => p (k, v) := by
  ext v
  rw [lookup_eq_some_iff_mem (h.sublist (filter_sublist.map _)), mem_filter,
    Option.filter_eq_some_iff, lookup_eq_some_iff_mem h]

lemma eq_of_lookup_eq {ys : List (α × β)} (hkeys : xs.map (·.1) = ys.map (·.1))
    (hnodup : (xs.map (·.1)).Nodup) (h : ∀ k, xs.lookup k = ys.lookup k) : xs = ys := by
  refine ext_getElem (by simpa using congrArg List.length hkeys) fun i hi hi' => ?_
  have hfst : (xs[i]).1 = (ys[i]).1 := by
    have := congrArg (·[i]?) hkeys
    simpa [hi, hi'] using this
  have hx : xs.lookup (xs[i]).1 = some (xs[i]).2 :=
    (lookup_eq_some_iff_mem hnodup).mpr (getElem_mem hi)
  have hy : ys.lookup (ys[i]).1 = some (ys[i]).2 :=
    (lookup_eq_some_iff_mem (hkeys ▸ hnodup)).mpr (getElem_mem hi')
  rw [hfst, h, hy] at hx
  exact Prod.ext hfst (Option.some.inj hx).symm

omit [BEq α] [LawfulBEq α] in
lemma keys_map_entry (f : α → β → γ) (xs : List (α × β)) :
    (xs.map fun kv => (kv.1, f kv.1 kv.2)).map (·.1) = xs.map (·.1) := by
  rw [map_map]
  rfl

lemma exists_lookup_of_keys_eq (h : xs.map (·.1) = ys.map (·.1)) (hk : (k, v) ∈ xs) :
    ∃ w, ys.lookup k = some w := by
  rw [← Option.isSome_iff_exists, lookup_isSome_iff_mem_keys, ← h]
  exact mem_map_of_mem (f := (·.1)) hk

end Lookup

lemma KeysAscend.nodup [Preorder α] (h : KeysAscend xs) : (xs.map (·.1)).Nodup :=
  h.imp fun hab => hab.ne

lemma KeysAscend.filter [Preorder α] (h : KeysAscend xs) (p : α × β → Bool) :
    KeysAscend (xs.filter p) :=
  h.sublist ((filter_sublist).map _)

lemma pairwise_lt_dedup_mergeSort [DecidableEq α] [LinearOrder α] (l : List α) :
    (l.mergeSort (· ≤ ·)).dedup.Pairwise (· < ·) := by
  have hle := (pairwise_mergeSort' (· ≤ ·) l).sublist (dedup_sublist _)
  exact (hle.and (nodup_dedup _)).imp fun h => lt_of_le_of_ne h.1 h.2

/-- Of two lists of one length, both by ascending key, one has the keys of the other if it has no
others. -/
lemma KeysAscend.keys_eq [LinearOrder α] (hx : KeysAscend xs) (hy : KeysAscend ys)
    (hsub : ∀ k v, (k, v) ∈ xs → ∃ w, ys.lookup k = some w) (hlen : xs.length = ys.length) :
    xs.map (·.1) = ys.map (·.1) := by
  have hkeys : xs.map (·.1) ⊆ ys.map (·.1) := fun k hk => by
    obtain ⟨⟨k, v⟩, hkv, rfl⟩ := mem_map.mp hk
    exact lookup_isSome_iff_mem_keys.mp (Option.isSome_iff_exists.mpr (hsub k v hkv))
  have hperm := (subperm_of_subset hx.nodup hkeys).perm_of_length_le (by simp [hlen])
  exact hperm.eq_of_pairwise (fun a b _ _ hab hba => absurd hba hab.asymm) hx hy

/-! ## Gathering entries -/

/-- Entries of one key, with related values. -/
def SameKey (R : β → γ → Prop) (e : α × β) (e' : α × γ) : Prop := e.1 = e'.1 ∧ R e.2 e'.2

lemma keys_eq_of_forall₂ {R : α × β → α × γ → Prop} (hR : ∀ a b, R a b → a.1 = b.1)
    (h : List.Forall₂ R xs ys) : xs.map (·.1) = ys.map (·.1) := by
  induction h with
  | nil => rfl
  | cons hab _ ih => rw [map_cons, map_cons, ih, hR _ _ hab]

lemma exists_lookup_of_forall₂ [BEq α] [LawfulBEq α] {R : α × β → α × γ → Prop}
    (hR : ∀ a b, R a b → a.1 = b.1) (h : List.Forall₂ R xs ys) (hk : xs.lookup k = some v) :
    ∃ w, ys.lookup k = some w ∧ R (k, v) (k, w) := by
  induction h with
  | nil => simp at hk
  | @cons a b xs ys hab _ ih =>
    obtain ⟨k₁, v₁⟩ := a
    obtain ⟨k₂, w₂⟩ := b
    obtain rfl : k₁ = k₂ := hR _ _ hab
    by_cases hkey : k = k₁
    · subst hkey
      obtain rfl : v₁ = v := by simpa using hk
      exact ⟨w₂, by simp, hab⟩
    · rw [lookup_cons_of_ne hkey] at hk ⊢
      exact ih hk

/-- Entry lists of the same keys whose values are related place by place. -/
lemma forall₂_sameKey (hkeys : xs.map (·.1) = ys.map (·.1))
    (h : ∀ (i : ℕ) (x : α × β) (y : α × γ), xs[i]? = some x → ys[i]? = some y → R x.2 y.2) :
    List.Forall₂ (SameKey R) xs ys := by
  induction xs generalizing ys with
  | nil =>
    obtain rfl := map_eq_nil_iff.mp hkeys.symm
    exact .nil
  | cons x xs ih =>
    cases ys with
    | nil => cases hkeys
    | cons y ys =>
      obtain ⟨hkey, hrest⟩ := List.cons.inj hkeys
      exact .cons ⟨hkey, h 0 x y rfl rfl⟩
        (ih hrest fun i a b ha hb => h (i + 1) a b (by simpa using ha) (by simpa using hb))

lemma forall₂_sameKey_eq {f : β → γ} :
    List.Forall₂ (SameKey fun a b => f a = b) xs ys ↔ ys = xs.map fun e => (e.1, f e.2) := by
  constructor
  · intro h
    induction h with
    | nil => rfl
    | @cons a b xs ys hab _ ih =>
      rw [map_cons, ih]
      exact congrArg (· :: _) (Prod.ext hab.1.symm hab.2.symm)
  · rintro rfl
    exact forall₂_map_right_iff.mpr (forall₂_same.mpr fun e _ => ⟨rfl, rfl⟩)

section Collect

variable [LinearOrder α]

/-- Put `v` at `k`, replacing what `k` held. -/
def insertEntry (k : α) (v : β) : List (α × β) → List (α × β)
  | [] => [(k, v)]
  | (k', v') :: rest =>
    if k < k' then (k, v) :: (k', v') :: rest
    else if k = k' then (k, v) :: rest
    else (k', v') :: insertEntry k v rest

/-- The entries gathered into a map, one after another. -/
def collect (entries : List (α × β)) : List (α × β) :=
  entries.foldl (fun m e => insertEntry e.1 e.2 m) []

lemma forall₂_insertEntry {w : γ} (hvw : R v w) (h : List.Forall₂ (SameKey R) xs ys) :
    List.Forall₂ (SameKey R) (insertEntry k v xs) (insertEntry k w ys) := by
  induction h with
  | nil => exact .cons ⟨rfl, hvw⟩ .nil
  | @cons a b xs ys hab hrest ih =>
    obtain ⟨k', v'⟩ := a
    obtain ⟨k'', w'⟩ := b
    obtain ⟨rfl, hv'⟩ : k' = k'' ∧ R v' w' := hab
    rw [insertEntry, insertEntry]
    split_ifs
    · exact .cons ⟨rfl, hvw⟩ (.cons ⟨rfl, hv'⟩ hrest)
    · exact .cons ⟨rfl, hvw⟩ hrest
    · exact .cons ⟨rfl, hv'⟩ ih

/-- Gathering respects entries of the same keys with related values. -/
lemma forall₂_collect (h : List.Forall₂ (SameKey R) xs ys) :
    List.Forall₂ (SameKey R) (collect xs) (collect ys) := by
  suffices hfold : ∀ {m : List (α × β)} {m' : List (α × γ)}, List.Forall₂ (SameKey R) m m' →
      List.Forall₂ (SameKey R) (xs.foldl (fun m e => insertEntry e.1 e.2 m) m)
        (ys.foldl (fun m e => insertEntry e.1 e.2 m) m') from hfold .nil
  induction h with
  | nil => exact fun hm => hm
  | @cons a b xs ys hab hrest ih =>
    intro m m' hm
    obtain ⟨hkey, hval⟩ := hab
    rw [foldl_cons, foldl_cons, hkey]
    exact ih (forall₂_insertEntry hval hm)

variable {e : α × β}

lemma mem_insertEntry (h : e ∈ insertEntry k v xs) : e = (k, v) ∨ e ∈ xs := by
  induction xs with
  | nil => simpa [insertEntry] using h
  | cons a xs ih =>
    rw [insertEntry] at h
    split_ifs at h
    · simpa using h
    · rcases List.mem_cons.mp h with h | h
      · exact .inl h
      · exact .inr (mem_cons_of_mem _ h)
    · rcases List.mem_cons.mp h with rfl | h
      · exact .inr (by simp)
      · exact (ih h).imp_right (mem_cons_of_mem _)

lemma keysAscend_insertEntry (h : KeysAscend xs) : KeysAscend (insertEntry k v xs) := by
  induction xs with
  | nil => simp [KeysAscend, insertEntry]
  | cons a xs ih =>
    obtain ⟨k', v'⟩ := a
    simp only [KeysAscend, map_cons, pairwise_cons] at h
    rw [insertEntry]
    split_ifs with hlt heq
    · simp only [KeysAscend, map_cons, pairwise_cons]
      refine ⟨fun k'' hk'' => ?_, h⟩
      rcases List.mem_cons.mp hk'' with rfl | hk''
      · exact hlt
      · exact hlt.trans (h.1 k'' hk'')
    · subst heq
      simpa only [KeysAscend, map_cons, pairwise_cons] using h
    · simp only [KeysAscend, map_cons, pairwise_cons]
      refine ⟨fun k'' hk'' => ?_, ih h.2⟩
      obtain ⟨e, he, rfl⟩ := mem_map.mp hk''
      rcases mem_insertEntry he with rfl | he
      · exact lt_of_le_of_ne (not_lt.mp hlt) (Ne.symm heq)
      · exact h.1 e.1 (mem_map_of_mem (f := (·.1)) he)

lemma keysAscend_collect (xs : List (α × β)) : KeysAscend (collect xs) := by
  suffices hfold : ∀ m : List (α × β), KeysAscend m →
      KeysAscend (xs.foldl (fun m e => insertEntry e.1 e.2 m) m) from hfold [] .nil
  induction xs with
  | nil => exact fun m hm => hm
  | cons a xs ih => exact fun m hm => ih _ (keysAscend_insertEntry hm)

lemma mem_collect (h : e ∈ collect xs) : e ∈ xs := by
  suffices hfold : ∀ m : List (α × β),
      e ∈ xs.foldl (fun m e => insertEntry e.1 e.2 m) m → e ∈ m ∨ e ∈ xs from
    (hfold [] h).resolve_left List.not_mem_nil
  clear h
  induction xs with
  | nil => exact fun m h => .inl h
  | cons x xs ih =>
    intro m h
    rcases ih _ h with h | h
    · rcases mem_insertEntry h with rfl | h
      · exact .inr (by simp)
      · exact .inl h
    · exact .inr (mem_cons_of_mem x h)

lemma lookup_insertEntry (k k' : α) (v : β) (xs : List (α × β)) :
    (insertEntry k v xs).lookup k' = if k' = k then some v else xs.lookup k' := by
  by_cases h : k' = k
  · subst h
    rw [if_pos rfl]
    induction xs with
    | nil => exact lookup_cons_self
    | cons a xs ih =>
      rw [insertEntry]
      split_ifs with hlt heq
      · exact lookup_cons_self
      · exact lookup_cons_self
      · rw [lookup_cons_of_ne heq, ih]
  · rw [if_neg h]
    induction xs with
    | nil => rw [insertEntry, lookup_cons_of_ne h]
    | cons a xs ih =>
      rw [insertEntry]
      split_ifs with hlt heq
      · rw [lookup_cons_of_ne h]
      · rw [lookup_cons_of_ne h, lookup_cons_of_ne (heq ▸ h)]
      · rw [lookup_cons, lookup_cons, ih]

/-- Entries of distinct keys are found as they were gathered. -/
lemma lookup_collect (h : (xs.map (·.1)).Nodup) (k : α) : (collect xs).lookup k = xs.lookup k := by
  suffices hfold : ∀ m : List (α × β),
      (xs.foldl (fun m e => insertEntry e.1 e.2 m) m).lookup k = (xs.lookup k).or (m.lookup k) by
    rw [collect, hfold, lookup_nil, Option.or_none]
  induction xs with
  | nil => simp
  | cons a xs ih =>
    obtain ⟨k', v⟩ := a
    simp only [map_cons, nodup_cons] at h
    intro m
    rw [foldl_cons, ih h.2, lookup_insertEntry]
    by_cases hk : k = k'
    · subst hk
      rw [lookup_eq_none_iff_not_mem_keys.mpr h.1, lookup_cons_self, if_pos rfl]
      rfl
    · rw [if_neg hk, lookup_cons_of_ne hk]

lemma mem_collect_iff (h : (xs.map (·.1)).Nodup) : e ∈ collect xs ↔ e ∈ xs := by
  rw [← lookup_eq_some_iff_mem (keysAscend_collect xs).nodup, lookup_collect h,
    lookup_eq_some_iff_mem h]

lemma insertEntry_of_lt (h : ∀ e ∈ xs, e.1 < k) : insertEntry k v xs = xs ++ [(k, v)] := by
  induction xs with
  | nil => rfl
  | cons a xs ih =>
    have ha := h a (by simp)
    rw [insertEntry, if_neg ha.not_gt, if_neg ha.ne',
      ih fun e he => h e (mem_cons_of_mem a he), cons_append]

lemma insertEntry_replace {w : β} {ys : List (α × β)} (h : KeysAscend (xs ++ (k, v) :: ys)) :
    insertEntry k w (xs ++ (k, v) :: ys) = xs ++ (k, w) :: ys := by
  induction xs with
  | nil => simp [insertEntry]
  | cons a xs ih =>
    rw [KeysAscend, cons_append, map_cons, pairwise_cons] at h
    have ha : a.1 < k := h.1 k (by simp)
    rw [cons_append, insertEntry, if_neg ha.not_gt, if_neg ha.ne', ih h.2, cons_append]

lemma collect_of_keysAscend (h : KeysAscend xs) : collect xs = xs := by
  suffices hfold : ∀ m : List (α × β), KeysAscend (m ++ xs) →
      xs.foldl (fun m e => insertEntry e.1 e.2 m) m = m ++ xs from hfold [] h
  induction xs with
  | nil => simp
  | cons a xs ih =>
    intro m hm
    have hlt : ∀ e ∈ m, e.1 < a.1 := by
      rw [KeysAscend, map_append, pairwise_append] at hm
      exact fun e he => hm.2.2 e.1 (mem_map_of_mem (f := (·.1)) he) a.1 (by simp)
    rw [foldl_cons, insertEntry_of_lt hlt]
    have happend : m ++ [(a.1, a.2)] ++ xs = m ++ a :: xs := by simp
    rw [ih (List.Pairwise.of_cons h) (m ++ [(a.1, a.2)]) (by rwa [happend]), happend]

lemma collect_map (f : β → γ) (xs : List (α × β)) :
    (collect xs).map (fun e => (e.1, f e.2)) = collect (xs.map fun e => (e.1, f e.2)) := by
  have h := forall₂_collect (forall₂_sameKey_eq.mpr (rfl : xs.map (fun e => (e.1, f e.2)) = _))
  exact (forall₂_sameKey_eq.mp h).symm

end Collect

end Cambra
