import Mathlib.Data.Fintype.EquivFin

/-!
# Dropping the dominated elements of a list

Of a list with a preorder, an element is dropped when another one is at least as large, unless
the two are equally large and the dropped one would come first.  Whatever is dropped, something
that is kept is at least as large (`exists_not_dominated`); in particular a list that has an
element keeps one.
-/

namespace Cambra

variable {α : Type*}

/-- Some other element of the list is at least as large as the one at `i`: strictly larger, or
earlier. -/
def Dominated (le : α → α → Prop) (xs : List α) (i : ℕ) : Prop :=
  ∃ j a b, xs[i]? = some a ∧ xs[j]? = some b ∧ j ≠ i ∧ le a b ∧ (j < i ∨ ¬le b a)

/-- **Every element is below one that is kept.** -/
theorem exists_not_dominated (le : α → α → Prop) (hrefl : ∀ a, le a a)
    (htrans : ∀ a b c, le a b → le b c → le a c) (xs : List α) {i : ℕ} {a : α}
    (ha : xs[i]? = some a) : ∃ k b, xs[k]? = some b ∧ ¬Dominated le xs k ∧ le a b := by
  -- domination is a strict order on the finitely many places, so it has no infinite descent
  let dom : Fin xs.length → Fin xs.length → Prop := fun j i =>
    le xs[i] xs[j] ∧ (j < i ∨ ¬le xs[j] xs[i])
  have : IsTrans _ dom := by
    refine ⟨fun k j i hkj hji => ⟨htrans _ _ _ hji.1 hkj.1, ?_⟩⟩
    by_contra hnot
    push Not at hnot
    obtain ⟨hik, hki⟩ := hnot
    have hkj' : k < j := hkj.2.resolve_right fun h => h (htrans _ _ _ hki hji.1)
    have hji' : j < i := hji.2.resolve_right fun h => h (htrans _ _ _ hkj.1 hki)
    omega
  have : Std.Irrefl dom := ⟨fun i hi => hi.2.elim (lt_irrefl i) fun h => h (hrefl _)⟩
  have hwf := Finite.wellFounded_of_trans_of_irrefl dom
  have hkept : ∀ i : Fin xs.length, ∃ k : Fin xs.length, ¬Dominated le xs k ∧ le xs[i] xs[k] := by
    intro i
    induction i using hwf.induction with
    | _ i ih =>
      by_cases hi : Dominated le xs i
      · obtain ⟨j, a, b, ha, hb, _, hle, hlt⟩ := hi
        obtain ⟨hj, rfl⟩ := List.getElem?_eq_some_iff.mp hb
        obtain ⟨_, rfl⟩ := List.getElem?_eq_some_iff.mp ha
        obtain ⟨k, hk, hjk⟩ := ih ⟨j, hj⟩ ⟨hle, hlt⟩
        exact ⟨k, hk, htrans _ _ _ hle hjk⟩
      · exact ⟨i, hi, hrefl _⟩
  obtain ⟨hi, rfl⟩ := List.getElem?_eq_some_iff.mp ha
  obtain ⟨k, hk, hle⟩ := hkept ⟨i, hi⟩
  exact ⟨k, xs[k], List.getElem?_eq_some_iff.mpr ⟨k.2, rfl⟩, hk, hle⟩

end Cambra
