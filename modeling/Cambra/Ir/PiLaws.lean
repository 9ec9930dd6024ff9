import Cambra.Ir.PiWalk

/-!
# When the conversions undo one another

Closing turns references by name to a binder into indices, opening turns them back.  Whether one
undoes the other, and whether closing depends on how the binder is spelled, is decided reference by
reference, over the references that are compared.  `AllRefs` says something of every one of them,
given how it stands: how many type binders were crossed to it, and whether it is `seen`, that is
whether no binder of the name in question was passed.

* `Ty.open_close`: opening undoes closing on a type without dangling indices.
* `Ty.close_open`: closing undoes opening where every reference to the function is seen and none by
  its binder's name is.  A reference to the function that is not seen is captured when it is opened,
  and closing leaves it to the inner binder.
* `Ty.close_eq_of_unread`: closing keeps a type that does not read the binder.
* `Ty.close_rename`: closing does not depend on the spelling, except through the target of a write,
  which it leaves by name.
-/

namespace Cambra.Ir

variable {ι : Type}

/-! ## References to the binders just outside -/

/-- Whether the name is an index of one of the `within` binders `depth` crossings up. -/
def Name.refersWithin (within depth : ℕ) : Name → Bool
  | .piBound i => depth ≤ i && i - depth < within
  | _ => false

lemma Name.refersWithin_one {depth : ℕ} {n : Name} :
    n.refersWithin 1 depth = false ↔ n ≠ .piBound depth := by
  cases n with
  | piBound i => simp [Name.refersWithin]; omega
  | _ => simp [Name.refersWithin]

mutual

/-- Whether the term references one of the `within` binders just outside it, `depth` crossings up.
The source visits a shared term once per depth. -/
def Expr.refersWithin (within depth : ℕ) : Expr ι → Bool
  | .var n ty ann =>
    n.refersWithin within depth || ty.refersWithin within depth || ann.refersWithin within depth
  | .node _ _ ty ann slots items =>
    ty.refersWithin within depth || ann.refersWithin within depth ||
      slots.refersWithin within depth || items.refersWithin within depth

def Items.refersWithin (within depth : ℕ) : Items ι → Bool
  | .nil => false
  | .child e rest => e.refersWithin within depth || rest.refersWithin within depth
  | .bind _ slots rest => slots.refersWithin within depth || rest.refersWithin within depth
  | .scope inner rest => inner.refersWithin within depth || rest.refersWithin within depth

def Ty.refersWithin (within depth : ℕ) : Ty ι → Bool
  | .mk _ parts => parts.refersWithin within depth

def Parts.refersWithin (within depth : ℕ) : Parts ι → Bool
  | .nil => false
  | .type t rest => t.refersWithin within depth || rest.refersWithin within depth
  | .cross _ rest => rest.refersWithin within (depth + 1)
  | .witness _ rest => rest.refersWithin within depth
  | .quote _ _ e rest => e.refersWithin within depth || rest.refersWithin within depth

def Tys.refersWithin (within depth : ℕ) : Tys ι → Bool
  | .nil => false
  | .cons t rest => t.refersWithin within depth || rest.refersWithin within depth

end

/-! ## How references stand -/

section AllRefs

variable (P : Bool → ℕ → Name → Prop) (Q : Bool → Name → Prop) (x : Name)

mutual

/-- Every variable of the term that is compared, given whether it is seen, the type binders crossed
to it and its name, satisfies `P`, and every write target satisfies `Q`. -/
def Expr.AllRefs (seen : Bool) (depth : ℕ) : Expr ι → Prop
  | .var n _ _ => P seen depth n
  | .node k target _ _ slots items =>
    (∀ n ∈ target, Q seen n) ∧ (k = .cast → slots.AllRefs seen depth) ∧ items.AllRefs seen depth

def Items.AllRefs (seen : Bool) (depth : ℕ) : Items ι → Prop
  | .nil => True
  | .child e rest => e.AllRefs seen depth ∧ rest.AllRefs seen depth
  | .bind n _ rest => rest.AllRefs (seen && n != x) depth
  | .scope inner rest => inner.AllRefs seen depth ∧ rest.AllRefs seen depth

def Ty.AllRefs (seen : Bool) (depth : ℕ) : Ty ι → Prop
  | .mk _ parts => parts.AllRefs seen depth

def Parts.AllRefs (seen : Bool) (depth : ℕ) : Parts ι → Prop
  | .nil => True
  | .type t rest => t.AllRefs seen depth ∧ rest.AllRefs seen depth
  | .cross n rest => rest.AllRefs (seen && n != some x) (depth + 1)
  | .witness _ rest => rest.AllRefs seen depth
  | .quote _ _ e rest => e.AllRefs seen depth ∧ rest.AllRefs seen depth

def Tys.AllRefs (seen : Bool) (depth : ℕ) : Tys ι → Prop
  | .nil => True
  | .cons t rest => t.AllRefs seen depth ∧ rest.AllRefs seen depth

end

end AllRefs

/-- A reference is seen when the binder's name is not among the shadowed ones. -/
def Sees (seen : Bool) (x : Name) (shadowed : List Name) : Prop := seen = true ↔ x ∉ shadowed

lemma Sees.under {seen : Bool} {x : Name} {shadowed : List Name} (h : Sees seen x shadowed)
    (n : Option Name) : Sees (seen && n != some x) x (shadowed ++ n.toList) := by
  simp only [Sees, Bool.and_eq_true, bne_iff_ne, ne_eq, List.mem_append, Option.mem_toList, not_or]
  exact and_congr h Iff.rfl

lemma sees_root (x : Name) : Sees true x [] := by simp [Sees]

attribute [local simp] Expr.compared Items.compared Ty.compared Parts.compared Tys.compared
  Expr.conv Items.conv Ty.conv Parts.conv Tys.conv Expr.refersWithin Items.refersWithin
  Ty.refersWithin Parts.refersWithin Tys.refersWithin Expr.AllRefs Items.AllRefs Ty.AllRefs
  Parts.AllRefs Tys.AllRefs

/-! ## One reference -/

section Turn

variable {x n : Name} {shadowed : List Name} {depth : ℕ}

lemma PiMode.turn_close (x : Name) (shadowed : List Name) (depth : ℕ) (n : Name) :
    (PiMode.close [some x]).turn shadowed depth n =
      if n = x ∧ x ∉ shadowed then .closed depth else .kept := by
  by_cases hn : n = x
  · subst hn
    by_cases hs : n ∈ shadowed <;> simp [PiMode.turn, hs]
  · simp [PiMode.turn, hn, Ne.symm hn]

lemma Expr.conv_close_taken (hn : n = x) (h : x ∉ shadowed) :
    (Expr.var n .blank .nil : Expr ι).conv (.close [some x]) shadowed depth =
      .var (.piBound depth) .blank .nil := by
  rw [Expr.conv, PiMode.turn_close, if_pos ⟨hn, h⟩]
  rfl

lemma Expr.conv_close_kept (h : ¬(n = x ∧ x ∉ shadowed)) :
    (Expr.var n .blank .nil : Expr ι).conv (.close [some x]) shadowed depth =
      .var n .blank .nil := by
  rw [Expr.conv, PiMode.turn_close, if_neg h]
  rfl

lemma Expr.conv_open_taken :
    (Expr.var (.piBound depth) .blank .nil : Expr ι).conv (.openAt x) shadowed depth =
      .var x .blank .nil := by simp [PiMode.turn]

lemma Expr.conv_open_kept (h : n ≠ .piBound depth) :
    (Expr.var n .blank .nil : Expr ι).conv (.openAt x) shadowed depth = .var n .blank .nil := by
  simp [PiMode.turn, if_neg h]

end Turn

variable {x y : Name} {seen : Bool} {shadowed : List Name} {depth : ℕ}

/-! ## Two walks, one after the other -/

section TwoWalks

variable {m m' : PiMode} {P : Bool → ℕ → Name → Prop}

/-- Two walks that give every reference back that `P` holds of give the tree back. -/
lemma conv_conv_eq (hvar : ∀ {seen shadowed depth} {n : Name}, Sees seen x shadowed →
      P seen depth n → ((Expr.var n .blank .nil : Expr Unit).conv m shadowed depth).conv m'
        shadowed depth = .var n .blank .nil) :
    (∀ (e : Expr ι) seen shadowed depth, Sees seen x shadowed →
      e.AllRefs P (fun _ _ => True) x seen depth →
      (e.compared.conv m shadowed depth).conv m' shadowed depth = e.compared) ∧
    (∀ (is : Items ι) seen around shadowed depth, Sees seen x shadowed →
      is.AllRefs P (fun _ _ => True) x seen depth →
      (is.compared.conv m around shadowed depth).conv m' around shadowed depth = is.compared) ∧
    (∀ (t : Ty ι) seen shadowed depth, Sees seen x shadowed →
      t.AllRefs P (fun _ _ => True) x seen depth →
      (t.compared.conv m shadowed depth).conv m' shadowed depth = t.compared) ∧
    (∀ (ps : Parts ι) seen shadowed depth, Sees seen x shadowed →
      ps.AllRefs P (fun _ _ => True) x seen depth →
      (ps.compared.conv m shadowed depth).conv m' shadowed depth = ps.compared) ∧
    ∀ (ts : Tys ι) seen shadowed depth, Sees seen x shadowed →
      ts.AllRefs P (fun _ _ => True) x seen depth →
      (ts.compared.conv m shadowed depth).conv m' shadowed depth = ts.compared := by
  apply trees_induction
  case var =>
    intro n ty ann _ _ seen shadowed depth hs h
    exact hvar hs h
  case node =>
    intro k target ty ann slots items _ _ hslots hitems seen shadowed depth hs h
    have hitems := hitems seen shadowed shadowed depth hs h.2.2
    by_cases hcast : k = .cast
    · simp [hcast, hitems, hslots seen shadowed depth hs (h.2.1 hcast)]
    · simp [hcast, hitems]
  case bind =>
    intro n slots rest _ hrest seen around shadowed depth hs h
    simpa using hrest _ around _ depth (hs.under (some n)) h
  case cross =>
    intro n rest ih seen shadowed depth hs h
    simpa using ih _ _ _ (hs.under n) h
  all_goals
    intros
    simp [-Bool.forall_bool] at *
    try grind

end TwoWalks

/-! ## Opening a closed type -/

lemma allRefs_of_refersWithin (x : Name) :
    (∀ (e : Expr ι) seen depth, e.refersWithin 1 depth = false →
      e.AllRefs (fun _ depth n => n ≠ .piBound depth) (fun _ _ => True) x seen depth) ∧
    (∀ (is : Items ι) seen depth, is.refersWithin 1 depth = false →
      is.AllRefs (fun _ depth n => n ≠ .piBound depth) (fun _ _ => True) x seen depth) ∧
    (∀ (t : Ty ι) seen depth, t.refersWithin 1 depth = false →
      t.AllRefs (fun _ depth n => n ≠ .piBound depth) (fun _ _ => True) x seen depth) ∧
    (∀ (ps : Parts ι) seen depth, ps.refersWithin 1 depth = false →
      ps.AllRefs (fun _ depth n => n ≠ .piBound depth) (fun _ _ => True) x seen depth) ∧
    ∀ (ts : Tys ι) seen depth, ts.refersWithin 1 depth = false →
      ts.AllRefs (fun _ depth n => n ≠ .piBound depth) (fun _ _ => True) x seen depth := by
  apply trees_induction
  all_goals
    intros
    simp [-Bool.forall_bool, Name.refersWithin_one] at *
    try grind

/-- **Opening undoes closing** on a type without dangling indices. -/
lemma Ty.open_close (hs : Sees seen x shadowed) (t : Ty ι) (h : t.refersWithin 1 depth = false) :
    (t.compared.conv (.close [some x]) shadowed depth).conv (.openAt x) shadowed depth =
      t.compared := by
  refine (conv_conv_eq ?_).2.2.1 t seen shadowed depth hs
    ((allRefs_of_refersWithin x).2.2.1 t seen depth h)
  intro seen shadowed depth n _ hn
  by_cases hx : n = x ∧ x ∉ shadowed
  · rw [Expr.conv_close_taken hx.1 hx.2, Expr.conv_open_taken, hx.1]
  · rw [Expr.conv_close_kept hx, Expr.conv_open_kept hn]

/-! ## Closing an opened codomain -/

/-- A reference that opening and closing again leave as it is: if it is to the enclosing function it
is seen, and if it is by that function's binder name it is not. -/
def Returns (x : Name) (seen : Bool) (depth : ℕ) (n : Name) : Prop :=
  (n = .piBound depth → seen = true) ∧ (n = x → seen = false)

/-- **Closing undoes opening** where every reference to the enclosing function is seen and none by
its binder's name is. -/
lemma Ty.close_open (hs : Sees seen x shadowed) (t : Ty ι)
    (h : t.AllRefs (Returns x) (fun _ _ => True) x seen depth) :
    (t.compared.conv (.openAt x) shadowed depth).conv (.close [some x]) shadowed depth =
      t.compared := by
  refine (conv_conv_eq ?_).2.2.1 t seen shadowed depth hs h
  intro seen shadowed depth n hs h
  by_cases hn : n = .piBound depth
  · rw [hn, Expr.conv_open_taken, Expr.conv_close_taken rfl (hs.mp (h.1 hn))]
  · rw [Expr.conv_open_kept hn, Expr.conv_close_kept]
    exact fun hx => absurd (hs.mpr hx.2) (by simp [h.2 hx.1])

/-! ## Closing a type that does not read the binder -/

section Close

attribute [local simp] Expr.reads Items.reads Ty.reads Parts.reads Tys.reads

/-- Closing keeps a tree in which nothing that can be seen reads the binder.  The test that saves
the walk is therefore never noticed. -/
lemma close_eq_of_unread (hx : x.IsBinder) :
    (∀ (e : Expr ι) shift seen shadowed depth, Sees seen x shadowed →
      (seen = true → e.reads x shift = false) →
      e.compared.conv (.close [some x]) shadowed depth = e.compared) ∧
    (∀ (is : Items ι) shift under seen around shadowed depth, Sees seen x shadowed →
      (seen = true → is.reads x shift under seen = false) →
      is.compared.conv (.close [some x]) around shadowed depth = is.compared) ∧
    (∀ (t : Ty ι) shift seen shadowed depth, Sees seen x shadowed →
      (seen = true → t.reads x shift = false) →
      t.compared.conv (.close [some x]) shadowed depth = t.compared) ∧
    (∀ (ps : Parts ι) shift seen shadowed depth, Sees seen x shadowed →
      (seen = true → ps.reads x shift seen = false) →
      ps.compared.conv (.close [some x]) shadowed depth = ps.compared) ∧
    ∀ (ts : Tys ι) shift seen shadowed depth, Sees seen x shadowed →
      (seen = true → ts.reads x shift = false) →
      ts.compared.conv (.close [some x]) shadowed depth = ts.compared := by
  apply trees_induction
  case var =>
    intro n ty ann _ _ shift seen shadowed depth hs h
    simp only [Expr.reads, Bool.or_eq_false_iff, hx.isWritten] at h
    refine Expr.conv_close_kept fun hn => ?_
    simpa [hn.1] using (h (hs.mpr hn.2)).1.1
  case node =>
    intro k target ty ann slots items _ _ hslots hitems shift seen shadowed depth hs h
    simp only [Expr.reads, Bool.or_eq_false_iff] at h
    have hitems := hitems shift _ seen shadowed shadowed depth hs fun hseen => hseen ▸ (h hseen).2
    have hslots := hslots shift seen shadowed depth hs fun hseen => (h hseen).1.2
    by_cases hcast : k = .cast
    · simp [hcast, hitems, hslots]
    · simp [hcast, hitems]
  case bind =>
    intro n slots rest _ hrest shift under seen around shadowed depth hs h
    simp only [Items.reads, Bool.or_eq_false_iff, hx.isWritten] at h
    have hrest := hrest shift under _ around _ depth (hs.under (some n))
      fun hseen => (h (Bool.and_eq_true_iff.mp hseen).1).2
    simpa using hrest
  case cross =>
    intro n rest ih shift seen shadowed depth hs h
    simp only [Parts.reads, hx.any_isWritten] at h
    have hrest := ih shift _ _ (depth + 1) (hs.under n)
      fun hseen => h (Bool.and_eq_true_iff.mp hseen).1
    simpa using hrest
  case mk =>
    intro k parts ih shift seen shadowed depth hs h
    simpa using ih shift seen shadowed depth hs fun hseen => hseen ▸ h hseen
  all_goals
    intros
    simp [-Bool.forall_bool] at *
    try grind

lemma Ty.close_eq_of_unread (hx : x.IsBinder) (t : Ty ι) (h : t.reads x 0 = false) :
    t.compared.conv (.close [some x]) [] depth = t.compared :=
  (Ir.close_eq_of_unread hx).2.2.1 t 0 true [] depth (sees_root x) fun _ => h

end Close

/-! ## Closing after respelling -/

/-- A write target that closing, which leaves it by name, does not tell from a respelled one. -/
def Untargeted (x : Name) (seen : Bool) (n : Name) : Prop := n = x → seen = false

section Rename

attribute [local simp] Expr.rename Items.rename Ty.rename Parts.rename Tys.rename
  Expr.Avoids Items.Avoids Ty.Avoids Parts.Avoids Tys.Avoids

/-- Closing does not depend on how the binder is spelled where no write that is seen targets it. -/
lemma close_rename :
    (∀ (e : Expr ι) seen shadowed depth, Sees seen x shadowed → y ∉ shadowed → e.Avoids y →
      e.AllRefs (fun _ _ _ => True) (Untargeted x) x seen depth →
      e.compared.conv (.close [some x]) shadowed depth =
        (e.rename x y seen).compared.conv (.close [some y]) shadowed depth) ∧
    (∀ (is : Items ι) under ambient seen around shadowed depth, Sees seen x shadowed →
      y ∉ shadowed → is.Avoids y → is.AllRefs (fun _ _ _ => True) (Untargeted x) x seen depth →
      is.compared.conv (.close [some x]) around shadowed depth =
        (is.rename x y under ambient seen).compared.conv (.close [some y]) around shadowed
          depth) ∧
    (∀ (t : Ty ι) seen shadowed depth, Sees seen x shadowed → y ∉ shadowed → t.Avoids y →
      t.AllRefs (fun _ _ _ => True) (Untargeted x) x seen depth →
      t.compared.conv (.close [some x]) shadowed depth =
        (t.rename x y seen).compared.conv (.close [some y]) shadowed depth) ∧
    (∀ (ps : Parts ι) seen shadowed depth, Sees seen x shadowed → y ∉ shadowed → ps.Avoids y →
      ps.AllRefs (fun _ _ _ => True) (Untargeted x) x seen depth →
      ps.compared.conv (.close [some x]) shadowed depth =
        (ps.rename x y seen).compared.conv (.close [some y]) shadowed depth) ∧
    ∀ (ts : Tys ι) seen shadowed depth, Sees seen x shadowed → y ∉ shadowed → ts.Avoids y →
      ts.AllRefs (fun _ _ _ => True) (Untargeted x) x seen depth →
      ts.compared.conv (.close [some x]) shadowed depth =
        (ts.rename x y seen).compared.conv (.close [some y]) shadowed depth := by
  apply trees_induction
  case var =>
    intro n ty ann _ _ seen shadowed depth hs hy havoids _
    show (Expr.var n .blank .nil).conv _ shadowed depth =
      (Expr.var (Name.rename x y seen n) .blank .nil).conv _ shadowed depth
    by_cases hn : n = x ∧ x ∉ shadowed
    · have hrename : Name.rename x y seen n = y := by
        simp [Name.rename, hn.1, hs.mpr hn.2]
      rw [Expr.conv_close_taken hn.1 hn.2, Expr.conv_close_taken hrename hy]
    · have hrename : Name.rename x y seen n = n := by
        simp only [Name.rename, Bool.and_eq_true, beq_iff_eq, ite_eq_right_iff]
        exact fun h => absurd ⟨h.2, hs.mp h.1⟩ hn
      rw [hrename, Expr.conv_close_kept hn, Expr.conv_close_kept fun h => havoids.1 h.1]
  case node =>
    intro k target ty ann slots items _ _ hslots hitems seen shadowed depth hs hy havoids h
    have htarget : target.map (Name.rename x y seen) = target := by
      cases target with
      | none => rfl
      | some n =>
        have hn : n = x → seen = false := h.1 n rfl
        grind [Name.rename]
    have hitems := hitems k.slotsUnderBinders seen seen shadowed shadowed depth hs hy
      havoids.2.2.2.2 h.2.2
    by_cases hcast : k = .cast
    · have hslots := hslots seen shadowed depth hs hy havoids.2.2.2.1 (h.2.1 hcast)
      subst hcast
      simp [htarget, hitems, hslots]
    · simp [hcast, htarget, hitems]
  case bind =>
    intro n slots rest _ hrest under ambient seen around shadowed depth hs hy havoids h
    have hrest := hrest under ambient _ around _ depth (hs.under (some n))
      (by simp [hy, Ne.symm havoids.1]) havoids.2.2 h
    exact congrArg (Items.bind n .nil) hrest
  case cross =>
    intro n rest ih seen shadowed depth hs hy havoids h
    have hrest := ih _ _ (depth + 1) (hs.under n) (by simp [hy, havoids.1]) havoids.2 h
    simpa using hrest
  all_goals
    intros
    simp [-Bool.forall_bool] at *
    try grind

lemma Ty.close_rename (t : Ty ι) (havoids : t.Avoids y)
    (h : t.AllRefs (fun _ _ _ => True) (Untargeted x) x true depth) :
    t.compared.conv (.close [some x]) [] depth =
      (t.rename x y true).compared.conv (.close [some y]) [] depth :=
  Ir.close_rename.2.2.1 t true [] depth (sees_root x) List.not_mem_nil havoids h

end Rename

end Cambra.Ir
