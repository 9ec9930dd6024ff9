import Cambra.Ir.PiMemo
import Cambra.Ir.PiLaws

/-!
# Closing and opening a function's binder

`closePiBinder` turns the references by name to a function's binder into indices when a codomain is
stored; `openPiBinder` turns the indices back into a name when the codomain is read; and
`mapOpenedCodomain` edits a stored codomain in its opened form.  They run the memoizing walk, so
what they return is known as far as it is compared (`closePiBinder_spec`, `openPiBinder_spec`), and
the laws of the conversions then say when they undo one another: types that agree in what is
compared are equal to the source.
-/

namespace Cambra.Ir

variable {ι : Type}

/-! ## The conversions as the passes call them -/

/-- What a conversion runs in: the memo of the pass around it, if one stands, and the allocator. -/
structure Session where
  conversions : Option (List (ConversionKey × Rc))
  next : ℕ

/-- A walk of its own over `ty`. -/
def Session.convert (s : Session) (m : PiMode) (ty : Ty ℕ) : Ty ℕ × Session :=
  let walked := ty.walk m [] 0 0
    { changed := 0, memo := [], conversions := s.conversions, next := s.next }
  (walked.1, { conversions := walked.2.conversions, next := walked.2.next })

/-- Close `ty`'s references to `binder`.  A type that does not read the binder is returned as it
is. -/
def closePiBinder (binder : Name) (ty : Ty ℕ) (s : Session) : Ty ℕ × Session :=
  if isFreeInType binder ty then s.convert (.close [some binder]) ty else (ty, s)

/-- Open the function whose codomain `ty` is, at a name. -/
def openPiBinder (target : Name) (ty : Ty ℕ) (s : Session) : Ty ℕ × Session :=
  s.convert (.openAt target) ty

/-- Whether `ty` references the function it was just extracted from. -/
def referencesEnclosingFunction (ty : Ty ι) : Bool := ty.refersWithin 1 0

/-- Run `edit` on a stored codomain in its opened form and close the result again. -/
def mapOpenedCodomain (binder : Name) (edit : Ty ℕ → Ty ℕ) (codomain : Ty ℕ) (s : Session) :
    Ty ℕ × Session :=
  if referencesEnclosingFunction codomain then
    let opened := openPiBinder binder codomain s
    closePiBinder binder (edit opened.1) opened.2
  else (edit codomain, s)

/-! ## What the conversions return -/

/-- The pass's memo holds conversions of the world's allocations, and the allocator goes on where
the world ends. -/
structure Session.Sound (W : World) (s : Session) : Prop where
  next : s.next = W.next
  conversions : ∀ table, s.conversions = some table → ∀ key done, (key, done) ∈ table →
    W.Converts key.2.1 key.1 key.2.2.1 key.2.2.2 done

/-- A conversion's outcome: a type of a later world that compares as `value`. -/
structure Session.Yields (W : World) (out : Ty ℕ × Session) (value : Ty Unit) : Prop where
  world : ∃ W', W.Extends W' ∧ out.2.Sound W' ∧ out.1.HeldIn W'
  value : out.1.compared = value

section Laws

variable {x y : Name} {W : World} {s : Session} {ty : Ty ℕ}

lemma Session.convert_spec (m : PiMode) (hs : s.Sound W) (ht : ty.HeldIn W) :
    Session.Yields W (s.convert m ty) (ty.compared.conv m [] 0) := by
  have hwalk : PiWalk.Sound m W
      { changed := 0, memo := [], conversions := s.conversions, next := s.next } :=
    ⟨hs.next, fun _ _ h => absurd h List.not_mem_nil, hs.conversions⟩
  obtain ⟨W', hret⟩ := ty.walk_spec [] 0 0 hwalk ht
  exact ⟨⟨W', hret.grows, ⟨hret.sound.next, hret.sound.conversions⟩, hret.heldIn⟩, hret.converted⟩

/-- Whether or not the walk is skipped, what is returned compares as the conversion. -/
lemma closePiBinder_spec (hx : x.IsBinder) (hs : s.Sound W) (ht : ty.HeldIn W) :
    Session.Yields W (closePiBinder x ty s) (ty.compared.conv (.close [some x]) [] 0) := by
  unfold closePiBinder
  cases hfree : isFreeInType x ty with
  | true => exact s.convert_spec _ hs ht
  | false => exact ⟨⟨W, .refl W, hs, ht⟩, (ty.close_eq_of_unread hx hfree).symm⟩

lemma openPiBinder_spec (x : Name) (hs : s.Sound W) (ht : ty.HeldIn W) :
    Session.Yields W (openPiBinder x ty s) (ty.compared.conv (.openAt x) [] 0) :=
  s.convert_spec _ hs ht

/-! ## When they are inverse -/

/-- No index of the type reaches past it. -/
def Ty.NoDangling (t : Ty ι) : Prop := ∀ within, t.refersWithin within 0 = false

/-- Closing gives back what opening was given: the codomain does not reference its function; or,
among the references that are compared, every one to the function is reached without passing a
binder `x`, and every one by the name `x` is reached through such a binder. -/
def ClosesBack (x : Name) (codomain : Ty ι) : Prop := referencesEnclosingFunction codomain = false ∨
    codomain.AllRefs (Returns x) (fun _ _ => True) x true 0

/-- Closing does not depend on the spelling: no write in the scope around targets the binder. -/
def ClosesAlike (x : Name) (ty : Ty ι) : Prop :=
  ty.AllRefs (fun _ _ _ => True) (Untargeted x) x true 0

lemma open_close_piBinder (hx : x.IsBinder) (hs : s.Sound W) (ht : ty.HeldIn W)
    (hdangling : ty.NoDangling) :
    (openPiBinder x (closePiBinder x ty s).1 (closePiBinder x ty s).2).1.compared =
      ty.compared := by
  obtain ⟨⟨W', -, hs', ht'⟩, hclosed⟩ := closePiBinder_spec hx hs ht
  rw [(openPiBinder_spec x hs' ht').value, hclosed, Ty.open_close (sees_root x) ty (hdangling 1)]

lemma mapOpenedCodomain_id (hx : x.IsBinder) (hs : s.Sound W) (ht : ty.HeldIn W)
    (h : ClosesBack x ty) : (mapOpenedCodomain x id ty s).1.compared = ty.compared := by
  unfold mapOpenedCodomain
  split
  · next hrefs =>
    obtain ⟨⟨W', -, hs', ht'⟩, hopened⟩ := openPiBinder_spec x hs ht
    have hreturns := h.resolve_left (by simp [hrefs])
    exact (closePiBinder_spec hx hs' ht').value.trans
      (hopened ▸ Ty.close_open (sees_root x) ty hreturns)
  · rfl

lemma closePiBinder_rename (hx : x.IsBinder) (hy : y.IsBinder) {renamed : Ty ℕ}
    (hs : s.Sound W) (ht : ty.HeldIn W) (ht' : renamed.HeldIn W) (havoids : ty.forget.Avoids y)
    (hrename : renamed.forget = ty.forget.rename x y true) (h : ClosesAlike x ty.forget) :
    (closePiBinder x ty s).1.compared = (closePiBinder y renamed s).1.compared := by
  rw [(closePiBinder_spec hx hs ht).value, (closePiBinder_spec hy hs ht').value,
    ← ty.compared_forget, ← renamed.compared_forget, hrename]
  exact ty.forget.close_rename havoids h

end Laws

/-- The integers that satisfy a predicate, which is a reference to `n` of the type `slot`. -/
def refinedBy (a : ℕ) (n : Name) (slot : Ty ℕ) : Ty ℕ :=
  .mk .refinement (.type (.mk (.base "Int") .nil) (.quote true a (.var n slot .nil) .nil))

/-- The Booleans that satisfy a predicate, which is a reference to the element `up` refinements
further out. -/
def trueOutside (up : ℕ) : Ty ℕ := .mk .refinement (.type (.mk (.base "Bool") .nil)
    (.quote true 0 (.var (.elem up) (.mk (.base "Bool") .nil) .nil) .nil))

/-- A codomain that is itself a function, with a binder of its own, and whose codomain is refined by
a reference of the type `slot` to the outer function. -/
def nestedCodomain (a : ℕ) (binder : Name) (slot : Ty ℕ) : Ty ℕ :=
  .mk (.function .compute) (.type (.mk (.base "Int") .nil)
    (.cross (some binder) (.type (refinedBy a (.piBound 1) slot) .nil)))

/-- A world whose allocations are references: to the element of the refinement around, and of its
type to the function outside an inner one, to `x` and to `y`. -/
def referenceWorld : World where
  held a :=
    if a = 0 then .var (.elem 1) (.mk (.base "Bool") .nil) .nil
    else .var (if a = 1 then .piBound 1 else if a = 2 then .raw "x" else .raw "y")
      (trueOutside 1).forget .nil
  next := 4

attribute [local simp] refinedBy trueOutside nestedCodomain referenceWorld Ty.HeldIn Parts.HeldIn
  Expr.HeldIn Tys.HeldIn Expr.forget Ty.forget Parts.forget Tys.forget Ty.AllRefs Parts.AllRefs
  Expr.AllRefs Ty.Avoids Parts.Avoids Expr.Avoids Tys.Avoids

end Cambra.Ir
