import Mathlib.Data.List.Forall2
import Mathlib.Data.List.Induction

/-!
# What a partial computation answers

A computation in `Option` either answers or fails.  `Decides o P` says that `o` answers, and
answers whether `P` holds; the lemmas below push such statements through the monadic list
operations, so that a caller states what its steps answer and never unfolds the traversal.
-/

namespace Cambra

open List hiding getElem?_eq_some_iff
open Option hiding pure_def

/-- `o` answers whether `P` holds. -/
def Decides (o : Option Bool) (P : Prop) : Prop := ∃ b, o = some b ∧ (b = true ↔ P)

variable {P Q : Prop} {o o' : Option Bool}

lemma Decides.congr (h : Decides o P) (hPQ : P ↔ Q) : Decides o Q := by
  obtain ⟨b, hb, hP⟩ := h
  exact ⟨b, hb, hP.trans hPQ⟩

lemma Decides.of_true (ho : o = some true) (hP : P) : Decides o P := ⟨true, ho, by simpa using hP⟩

lemma Decides.of_false (ho : o = some false) (hP : ¬P) : Decides o P :=
  ⟨false, ho, by simpa using hP⟩

lemma Decides.eq_decide [Decidable P] (h : Decides o P) : o = some (decide P) := by
  obtain ⟨b, rfl, hP⟩ := h
  exact congrArg some (Bool.eq_iff_iff.mpr (by simpa using hP))

/-- A decision that is only looked at when the first holds. -/
lemma Decides.and (h : Decides o P) (h' : P → Decides o' Q) :
    Decides (o.bind fun b => if b then o' else some false) (P ∧ Q) := by
  obtain ⟨b, rfl, hP⟩ := h
  cases b with
  | false => exact .of_false rfl fun hPQ => by simpa using hP.mpr hPQ.1
  | true => exact (h' (hP.mp rfl)).congr (by simp [hP.mp rfl])

/-- A decision that is only looked at when the first does not hold. -/
lemma Decides.or (h : Decides o P) (h' : ¬P → Decides o' Q) :
    Decides (o.bind fun b => if b then some true else o') (P ∨ Q) := by
  obtain ⟨b, rfl, hP⟩ := h
  cases b with
  | false =>
    have hnot : ¬P := fun hp => by simpa using hP.mpr hp
    exact (h' hnot).congr (by simp [hnot])
  | true => exact .of_true rfl (.inl (hP.mp rfl))

lemma Decides.not (h : Decides o P) : Decides (o.bind fun b => some !b) (¬P) := by
  obtain ⟨b, rfl, hP⟩ := h
  exact ⟨!b, rfl, by rw [← hP]; simp⟩

section Lists

variable {α β : Type} {a : α} {f : α → Option Bool} {xs : List α} {ys : List β} {R : α → β → Prop}
  {i : ℕ}

lemma allM_cons : (a :: xs).allM f = (f a).bind fun b => if b then xs.allM f else some false := by
  rw [List.allM]
  cases f a with
  | none => rfl
  | some b => cases b <;> rfl

lemma allM_eq_true_iff : xs.allM f = some true ↔ ∀ a ∈ xs, f a = some true := by
  induction xs with
  | nil => simp
  | cons a xs ih =>
    rw [allM_cons, forall_mem_cons, ← ih]
    rcases f a with _ | _ | _ <;> simp

lemma Decides.allM {f : α → Option Bool} {P : α → Prop} :
    ∀ {xs : List α}, (∀ a ∈ xs, Decides (f a) (P a)) → Decides (xs.allM f) (∀ a ∈ xs, P a)
  | [], _ => .of_true rfl (by simp)
  | a :: xs, h => by
    have hrest := Decides.allM fun b hb => h b (mem_cons_of_mem a hb)
    rw [allM_cons]
    exact ((h a (by simp)).and fun _ => hrest).congr (by simp)

lemma anyM_cons : (a :: xs).anyM f = (f a).bind fun b => if b then some true else xs.anyM f := by
  rw [List.anyM]
  cases f a with
  | none => rfl
  | some b => cases b <;> rfl

lemma Decides.anyM {f : α → Option Bool} {P : α → Prop} :
    ∀ {xs : List α}, (∀ a ∈ xs, Decides (f a) (P a)) → Decides (xs.anyM f) (∃ a ∈ xs, P a)
  | [], _ => .of_false rfl (by simp)
  | a :: xs, h => by
    have hrest := Decides.anyM fun b hb => h b (mem_cons_of_mem a hb)
    rw [anyM_cons]
    exact ((h a (by simp)).or fun _ => hrest).congr (by simp)

/-- A traversal answers when each step does, element by element. -/
lemma mapM_eq_some_of_forall {f : α → Option β} {R : α → β → Prop} :
    ∀ {xs : List α}, (∀ a ∈ xs, ∃ b, f a = some b ∧ R a b) →
      ∃ ys, xs.mapM f = some ys ∧ List.Forall₂ R xs ys
  | [], _ => ⟨[], rfl, .nil⟩
  | a :: xs, h => by
    obtain ⟨b, hb, hR⟩ := h a (by simp)
    obtain ⟨ys, hys, hall⟩ := mapM_eq_some_of_forall fun c hc => h c (mem_cons_of_mem a hc)
    exact ⟨b :: ys, by simp [mapM_cons, hb, hys], .cons hR hall⟩

lemma mapM_eq_some_iff_forall₂ {f : α → Option β} :
    xs.mapM f = some ys ↔ List.Forall₂ (fun x y => f x = some y) xs ys := by
  induction xs generalizing ys with
  | nil =>
    rw [mapM_nil, forall₂_nil_left_iff]
    exact ⟨fun h => (Option.some.inj h).symm, fun h => by rw [h]; rfl⟩
  | cons x xs ih =>
    rw [forall₂_cons_left_iff]
    simp only [mapM_cons, bind_eq_bind, bind_eq_some_iff, Option.pure_def, Option.some.injEq, ih]
    constructor
    · rintro ⟨y, hy, ys, hys, rfl⟩
      exact ⟨y, ys, hy, hys, rfl⟩
    · rintro ⟨y, ys, hy, hys, rfl⟩
      exact ⟨y, hy, ys, hys, rfl⟩

lemma mapM_congr {f g : α → Option β} (h : ∀ x ∈ xs, f x = g x) : xs.mapM f = xs.mapM g := by
  induction xs with
  | nil => rfl
  | cons x xs ih =>
    rw [mapM_cons, mapM_cons, h x (by simp), ih fun y hy => h y (by simp [hy])]

/-- A traversal whose steps answer gives the entries built from the answers. -/
lemma exists_mapM_eq_map {γ : Type} [Nonempty β] {f : α → Option β} {R : α → β → Prop}
    (entry : α → β → γ) (h : ∀ a ∈ xs, ∃ b, f a = some b ∧ R a b) :
    ∃ g : α → β, xs.mapM (fun a => do return entry a (← f a)) =
      some (xs.map fun a => entry a (g a)) ∧ ∀ a ∈ xs, R a (g a) := by
  choose! g hf hR using h
  refine ⟨g, (mapM_congr fun a ha => ?_).trans mapM_pure, hR⟩
  rw [hf a ha]
  rfl

lemma mapM_attach (f : α → Option β) (xs : List α) :
    xs.attach.mapM (fun x => f x.1) = xs.mapM f := by
  conv_rhs => rw [← attach_map_subtype_val xs, mapM_map]
  rfl

lemma forall₂_getElem? (h : List.Forall₂ R xs ys) (ha : xs[i]? = some a) :
    ∃ b, ys[i]? = some b ∧ R a b := by
  induction h generalizing i with
  | nil => simp at ha
  | cons hR _ ih =>
    cases i with
    | zero => exact ⟨_, rfl, by simpa using Option.some.inj ha ▸ hR⟩
    | succ i => exact ih (by simpa using ha)

lemma exists_of_forall₂_mem_right (h : List.Forall₂ R xs ys) {b : β} (hb : b ∈ ys) :
    ∃ a ∈ xs, R a b := by
  obtain ⟨i, hi⟩ := mem_iff_getElem?.mp hb
  obtain ⟨a, ha, hR⟩ := forall₂_getElem? h.flip hi
  exact ⟨a, mem_iff_getElem?.mpr ⟨i, ha⟩, hR⟩

lemma exists_mem_iff_of_forall₂ {P : α → Prop} {Q : β → Prop} (h : List.Forall₂ R xs ys)
    (hR : ∀ a b, R a b → (Q b ↔ P a)) : (∃ b ∈ ys, Q b) ↔ ∃ a ∈ xs, P a := by
  constructor
  · rintro ⟨b, hb, hQ⟩
    obtain ⟨a, ha, hab⟩ := exists_of_forall₂_mem_right h hb
    exact ⟨a, ha, (hR a b hab).mp hQ⟩
  · rintro ⟨a, ha, hP⟩
    obtain ⟨b, hb, hab⟩ := exists_of_forall₂_mem_right h.flip ha
    exact ⟨b, hb, (hR a b hab).mpr hP⟩

lemma forall₂_iff_getElem? : List.Forall₂ R xs ys ↔ xs.length = ys.length ∧
      ∀ (i : ℕ) a b, xs[i]? = some a → ys[i]? = some b → R a b := by
  constructor
  · intro h
    refine ⟨h.length_eq, fun i a b ha hb => ?_⟩
    obtain ⟨b', hb', hR⟩ := forall₂_getElem? h ha
    obtain rfl := mem_unique hb hb'
    exact hR
  · rintro ⟨hlen, h⟩
    induction xs generalizing ys with
    | nil =>
      obtain rfl := length_eq_zero_iff.mp hlen.symm
      exact .nil
    | cons a xs ih =>
      obtain ⟨b, ys, rfl⟩ := exists_cons_of_length_eq_add_one hlen.symm
      refine .cons (h 0 a b rfl rfl) (ih (by simpa using hlen) fun i a b ha hb => ?_)
      exact h (i + 1) a b (by simpa using ha) (by simpa using hb)

lemma forall₂_imp_of_mem {S : α → β → Prop} (h : List.Forall₂ R xs ys)
    (himp : ∀ a ∈ xs, ∀ b ∈ ys, R a b → S a b) : List.Forall₂ S xs ys := by
  obtain ⟨hlen, h⟩ := forall₂_iff_getElem?.mp h
  exact forall₂_iff_getElem?.mpr ⟨hlen, fun i a b ha hb =>
    himp a (mem_of_getElem? ha) b (mem_of_getElem? hb) (h i a b ha hb)⟩

lemma forall₂_append_iff {xs' : List α} {ys' : List β} (hlen : xs.length = ys.length) :
    List.Forall₂ R (xs ++ xs') (ys ++ ys') ↔ List.Forall₂ R xs ys ∧ List.Forall₂ R xs' ys' := by
  induction xs generalizing ys with
  | nil =>
    obtain rfl := length_eq_zero_iff.mp hlen.symm
    simp
  | cons x xs ih =>
    obtain ⟨y, ys, rfl⟩ := exists_cons_of_length_eq_add_one hlen.symm
    simp [ih (by simpa using hlen), and_assoc]

lemma exists_of_forall₂_append {zs : List β} (h : List.Forall₂ R xs (ys ++ zs)) :
    ∃ xs₁ xs₂, xs = xs₁ ++ xs₂ ∧ List.Forall₂ R xs₁ ys ∧ List.Forall₂ R xs₂ zs :=
  ⟨_, _, (take_append_drop ..).symm, forall₂_take_append _ _ _ h, forall₂_drop_append _ _ _ h⟩

/-- Two lists that each go with a third go with each other. -/
lemma forall₂_through {γ : Type} {S : α → γ → Prop} {zs : List γ} (h : List.Forall₂ R xs ys)
    (h' : List.Forall₂ S xs zs) : List.Forall₂ (fun y z => ∃ x ∈ xs, R x y ∧ S x z) ys zs := by
  obtain ⟨hlen, h'⟩ := forall₂_iff_getElem?.mp h'
  refine forall₂_iff_getElem?.mpr ⟨h.length_eq.symm.trans hlen, fun i y z hy hz => ?_⟩
  obtain ⟨x, hx, hxy⟩ := forall₂_getElem? h.flip hy
  exact ⟨x, mem_of_getElem? hx, hxy, h' i x z hx hz⟩

lemma getElem?_zipIdx_eq_some {k : ℕ} : xs.zipIdx[i]? = some (a, k) ↔ xs[i]? = some a ∧ i = k := by
  rw [getElem?_zipIdx, map_eq_some_iff]
  simp

/-- A filter answers when each test does, with the elements whose test holds. -/
lemma filterM_eq_some_of_forall {P : α → Prop} [DecidablePred P]
    (h : ∀ a ∈ xs, Decides (f a) (P a)) : xs.filterM f = some (xs.filter P) := by
  -- the elements kept so far are accumulated newest first
  suffices haux : ∀ kept : List α,
      List.filterAuxM f xs kept = some ((xs.filter P).reverse ++ kept) by simp [List.filterM, haux]
  induction xs with
  | nil => simp [List.filterAuxM]
  | cons a xs ih =>
    intro kept
    have hrest := ih fun c hc => h c (mem_cons_of_mem a hc)
    by_cases hP : P a <;> simp [List.filterAuxM, (h a (by simp)).eq_decide, hrest, hP]

/-- A search answers when each step does: with a result of the list, or with nothing. -/
lemma findSomeM?_eq_some_of_forall {f : α → Option (Option β)} {R : α → β → Prop} :
    ∀ {xs : List α}, (∀ a ∈ xs, ∃ o, f a = some o ∧ ∀ b, o = some b → R a b) →
      ∃ o, xs.findSomeM? f = some o ∧ ∀ b, o = some b → ∃ a ∈ xs, R a b
  | [], _ => ⟨none, rfl, by simp⟩
  | a :: xs, h => by
    obtain ⟨o, ho, hR⟩ := h a (by simp)
    cases o with
    | none =>
      obtain ⟨o', ho', hR'⟩ := findSomeM?_eq_some_of_forall fun c hc => h c (mem_cons_of_mem a hc)
      refine ⟨o', by simp [List.findSomeM?, ho, ho'], fun b hb => ?_⟩
      obtain ⟨c, hc, hcb⟩ := hR' b hb
      exact ⟨c, mem_cons_of_mem a hc, hcb⟩
    | some b =>
      refine ⟨some b, by simp [List.findSomeM?, ho], fun b' hb' => ?_⟩
      exact ⟨a, by simp, hR b' hb'⟩

/-- A left fold answers when each step does from a state that keeps the invariant. -/
lemma foldlM_eq_some_of_invariant {f : β → α → Option β} (I : List α → β → Prop) {init : β}
    (hinit : I [] init) (hstep : ∀ done a rest b, xs = done ++ a :: rest → I done b →
      ∃ b', f b a = some b' ∧ I (done ++ [a]) b') : ∃ b, xs.foldlM f init = some b ∧ I xs b := by
  suffices h : ∀ rest done b, xs = done ++ rest → I done b →
      ∃ b', rest.foldlM f b = some b' ∧ I xs b' from h xs [] init rfl hinit
  intro rest
  induction rest with
  | nil =>
    rintro done b rfl hb
    exact ⟨b, rfl, by simpa using hb⟩
  | cons a rest ih =>
    intro done b hxs hb
    obtain ⟨b', hfb, hb'⟩ := hstep done a rest b hxs hb
    obtain ⟨b'', hfold, hI⟩ := ih (done ++ [a]) b' (by simpa using hxs) hb'
    exact ⟨b'', by simp [hfb, hfold], hI⟩

/-! ### Pushing results -/

/-- The results of `f`, each of which may read the results before it. -/
def pushEach (f : List β → α → Option β) (xs : List α) : Option (List β) :=
  xs.foldlM (fun ys x => do
    let y ← f ys x
    some (ys ++ [y])) []

lemma pushEach_concat {f : List β → α → Option β} (xs : List α) (x : α) : pushEach f (xs ++ [x]) =
      (pushEach f xs).bind fun ys => (f ys x).bind fun y => some (ys ++ [y]) := by
  rw [pushEach, foldlM_append]
  refine congrArg (Option.bind _) (funext fun ys => ?_)
  rw [foldlM_cons]
  cases f ys x <;> rfl

lemma pushEach_length {f : List β → α → Option β} (h : pushEach f xs = some ys) :
    ys.length = xs.length := by
  induction xs using List.reverseRecOn generalizing ys with
  | nil =>
    cases h
    rfl
  | append_singleton xs x ih =>
    rw [pushEach_concat] at h
    simp only [bind_eq_some_iff, Option.some.injEq] at h
    obtain ⟨ys, hys, y, -, rfl⟩ := h
    simp [ih hys]

/-- The results of the first elements are the first results. -/
lemma pushEach_take {f : List β → α → Option β} (h : pushEach f xs = some ys) (n : ℕ) :
    pushEach f (xs.take n) = some (ys.take n) := by
  induction xs using List.reverseRecOn generalizing ys with
  | nil =>
    cases h
    simp [pushEach]
  | append_singleton xs x ih =>
    have hlen := pushEach_length h
    rw [pushEach_concat] at h
    simp only [bind_eq_some_iff, Option.some.injEq] at h
    obtain ⟨zs, hzs, y, hy, rfl⟩ := h
    have hzlen := pushEach_length hzs
    by_cases hn : n ≤ xs.length
    · rw [take_append_of_le_length hn, take_append_of_le_length (hzlen ▸ hn)]
      exact ih hzs
    · have hn : xs.length + 1 ≤ n := by omega
      rw [take_of_length_le (by simpa using hn),
        take_of_length_le (by simpa [hzlen] using hn), pushEach_concat, hzs,
        bind_some, hy, bind_some]

/-- Each result is what `f` gives on the results before it. -/
lemma pushEach_getElem {f : List β → α → Option β} (h : pushEach f xs = some ys) {x : α}
    (hx : xs[i]? = some x) : ∃ y, ys[i]? = some y ∧ f (ys.take i) x = some y := by
  have hi : i < xs.length := (List.getElem?_eq_some_iff.mp hx).1
  have htake : xs.take (i + 1) = xs.take i ++ [x] := by
    rw [take_add_one, hx]
    rfl
  have hlast := pushEach_take h (i + 1)
  rw [htake, pushEach_concat, pushEach_take h i, bind_some] at hlast
  obtain ⟨y, hy, hys⟩ := bind_eq_some_iff.mp hlast
  have hlen := pushEach_length h
  refine ⟨y, ?_, hy⟩
  have := congrArg (·[i]?) (Option.some.inj hys)
  simpa [getElem?_take, getElem?_append, hlen, Nat.min_eq_left (Nat.le_of_lt hi)] using this.symm

end Lists

end Cambra
