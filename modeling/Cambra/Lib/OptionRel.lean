import Mathlib.Data.Option.Defs

/-!
# Related partial computations

Two computations in `Option` are related when both fail or both return related results
(`Option.Rel`).  The rules here lift such a relation through sequencing and mapping and to a
weaker relation, which is all a simulation proof between two partial state machines needs.
-/

namespace Option.Rel

variable {α β γ δ : Type*} {R : α → β → Prop} {S : γ → δ → Prop}

lemma bind {a : Option α} {b : Option β} (h : Option.Rel R a b) {f : α → Option γ}
    {g : β → Option δ} (hfg : ∀ x y, R x y → Option.Rel S (f x) (g y)) :
    Option.Rel S (a.bind f) (b.bind g) := by
  cases h with
  | none => exact .none
  | some hxy => exact hfg _ _ hxy

lemma map {a : Option α} {b : Option β} (h : Option.Rel R a b) {f : α → γ} {g : β → δ}
    (hfg : ∀ x y, R x y → S (f x) (g y)) : Option.Rel S (a.map f) (b.map g) := by
  cases h with
  | none => exact .none
  | some hxy => exact .some (hfg _ _ hxy)

lemma mono {R' : α → β → Prop} {a : Option α} {b : Option β} (h : Option.Rel R a b)
    (hR : ∀ x y, R x y → R' x y) : Option.Rel R' a b := by
  cases h with
  | none => exact .none
  | some hxy => exact .some (hR _ _ hxy)

end Option.Rel
