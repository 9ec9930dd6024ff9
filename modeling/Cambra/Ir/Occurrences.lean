import Cambra.Ir.Resolve
import Cambra.Lib.Assoc

/-!
# Minted names stand for numbered binders

The walk knows binders by the names it mints, the two scoping rules by their numbers.  The log of a
walk pairs the two.  Numbers and uids both grow as the walk goes on, so a number has one name and a
name one number, and no minted name is one the tree had before.  An occurrence then corresponds to
what the walk writes for it exactly when the two rules give it the same binder
(`corresponds_rewrite_iff`).  Where the walk does not go, the tree corresponds to itself exactly
when it is inert (`inert_iff`).
-/

namespace Cambra.Ir

/-- The binders passed so far, each with the name minted for it. -/
abbrev MintLog := List (ℕ × Name)

/-- Numbers and names determine one another, and the names are new. -/
structure MintLog.Consistent (uid₀ : ℕ) (μ : MintLog) : Prop where
  eq_iff : ∀ x ∈ μ, ∀ y ∈ μ, x.1 = y.1 ↔ x.2 = y.2
  fresh : ∀ x ∈ μ, ¬x.2.Old uid₀

/-- A binder the walk has in hand, by number and by name. -/
inductive MintLog.InHand (μ : MintLog) : String × ℕ → String × Name → Prop
  | mk {base : String} {i v : ℕ} {home : Option Home} (h : (i, Name.unique base v home) ∈ μ) :
    InHand μ (base, i) (base, .unique base v home)

/-- A binder in scope and the pair of names it has before and after the walk.  A type's binder keeps
its name. -/
inductive MintLog.InScope (uid₀ : ℕ) (μ : MintLog) : Name × Option ℕ → Name × Name → Prop
  | crossed {n : Name} (h : n.Old uid₀) : InScope uid₀ μ (n, none) (n, n)
  | bound {base : String} {i v : ℕ} {home : Option Home} (h : (i, Name.unique base v home) ∈ μ) :
    InScope uid₀ μ (.raw base, some i) (.raw base, .unique base v home)

section Names

variable {uid₀ : ℕ} {μ μ' : MintLog} {env : BinderEnv} {names : UniqueEnv} {Γ : Scope}
  {pairs : List (Name × Name)}

lemma MintLog.InHand.mono (hsub : μ ⊆ μ') {x : String × ℕ} {y : String × Name}
    (h : μ.InHand x y) : μ'.InHand x y := by
  obtain ⟨h⟩ := h
  exact ⟨hsub h⟩

/-- The walk's two views of what it has in hand agree on an occurrence. -/
lemma MintLog.InHand.find_cases (h : List.Forall₂ μ.InHand env names) (n : Name) :
    env.find n = none ∧ names.resolve n = none ∨
      ∃ base i v home, n = .raw base ∧ env.find n = some i ∧
        names.resolve n = some (.unique base v home) ∧ (i, Name.unique base v home) ∈ μ := by
  cases n with
  | raw base =>
    induction h with
    | nil => exact .inl ⟨rfl, rfl⟩
    | @cons x y env names hxy _ ih =>
      obtain @⟨base', i, v, home, hmem⟩ := hxy
      by_cases hbase : base = base'
      · subst hbase
        exact .inr ⟨base, i, v, home, rfl, by simp [BinderEnv.find], by simp [UniqueEnv.resolve],
          hmem⟩
      · simpa only [BinderEnv.find, UniqueEnv.resolve, lookup_cons_of_ne hbase] using ih
  | _ => exact .inl ⟨rfl, rfl⟩

lemma Scope.find_cons_of_ne {m n : Name} {i : Option ℕ} (h : n ≠ m) :
    Scope.find ((m, i) :: Γ) n = Γ.find n := by rw [Scope.find, lookup_cons_of_ne h, Scope.find]

section Corresponds

variable (hμ : μ.Consistent uid₀) (hΓ : List.Forall₂ (MintLog.InScope uid₀ μ) Γ pairs)

include hΓ

lemma MintLog.InScope.cross {n : Option Name} (hn : ∀ x ∈ n, x.Old uid₀) :
    List.Forall₂ (MintLog.InScope uid₀ μ) (Γ.cross n) (crossBoth pairs n n) := by
  cases n with
  | none => exact hΓ
  | some x => exact .cons (.crossed (hn x rfl)) hΓ

include hμ

/-- An occurrence the walk leaves alone corresponds to itself when no term binder scopes over it. -/
lemma corresponds_self_iff {n : Name} (hn : n.Old uid₀) :
    Corresponds pairs n n ↔ Γ.find n = none := by
  induction hΓ with
  | nil => simp [Corresponds, Scope.find]
  | @cons x y Γ pairs hxy _ ih =>
    cases hxy with
    | @crossed m hm =>
      by_cases hnm : n = m
      · simp [Corresponds, Scope.find, hnm]
      · simp [Corresponds, hnm, Scope.find_cons_of_ne hnm, ih]
    | @bound base i v home hmem =>
      have hne : n ≠ .unique base v home := by
        rintro rfl
        exact hμ.fresh _ hmem hn
      by_cases hnm : n = .raw base
      · simp [Corresponds, Scope.find, hnm]
      · simp [Corresponds, hnm, hne, Scope.find_cons_of_ne hnm, ih]

/-- An occurrence the walk resolves corresponds to the name written for it when the binder of that
name scopes over it. -/
lemma corresponds_minted_iff {base : String} {i v : ℕ} {home : Option Home}
    (hmem : (i, Name.unique base v home) ∈ μ) :
    Corresponds pairs (.raw base) (.unique base v home) ↔ Γ.find (.raw base) = some i := by
  induction hΓ with
  | nil => simp [Corresponds, Scope.find]
  | @cons x y Γ pairs hxy _ ih =>
    cases hxy with
    | @crossed m hm =>
      have hne : Name.unique base v home ≠ m := by
        rintro rfl
        exact hμ.fresh _ hmem hm
      by_cases hnm : Name.raw base = m
      · subst hnm
        simp [Corresponds, Scope.find]
      · simp [Corresponds, hnm, hne, Scope.find_cons_of_ne hnm, ih]
    | @bound base' j w home' hmem' =>
      by_cases hbase : base = base'
      · subst hbase
        have hiff := hμ.eq_iff _ hmem _ hmem'
        simp only [Name.unique.injEq, true_and] at hiff
        simp [Corresponds, Scope.find, ← hiff, eq_comm]
      · have hne : Name.raw base ≠ .raw base' := by simpa using hbase
        simp [Corresponds, hbase, Scope.find_cons_of_ne hne, ih]

/-- **An occurrence corresponds to what the walk writes for it exactly when the two rules give it
the same binder.** -/
lemma corresponds_rewrite_iff (henv : List.Forall₂ μ.InHand env names) {n : Name}
    (hn : n.Old uid₀) : Corresponds pairs n (names.rewrite n) ↔ Γ.find n = env.find n := by
  rcases MintLog.InHand.find_cases henv n with ⟨hfind, hresolve⟩ | ⟨base, i, v, home, rfl, hfind,
    hresolve, hmem⟩
  · rw [UniqueEnv.rewrite, hresolve, hfind, Option.getD_none]
    exact corresponds_self_iff hμ hΓ hn
  · rw [UniqueEnv.rewrite, hresolve, hfind, Option.getD_some]
    exact corresponds_minted_iff hμ hΓ hmem

lemma targetsCorrespond_rewrite_iff (henv : List.Forall₂ μ.InHand env names)
    {target : Option Name} (hn : ∀ n ∈ target, n.Old uid₀) :
    TargetsCorrespond pairs target (target.map names.rewrite) ↔
      ∀ n ∈ target, Γ.find n = env.find n := by
  cases target with
  | none => simp [TargetsCorrespond]
  | some n => simpa [TargetsCorrespond] using corresponds_rewrite_iff hμ hΓ henv (hn n rfl)

end Corresponds

/-! ## Where the walk does not go -/

section Inert

variable {ι κ : Type} {k k' : NodeKind} {target target' : Option Name} {ty : Ty ι}
  {ann slots : Tys ι} {items : Items ι} {ty' : Ty κ} {ann' slots' : Tys κ} {items' : Items κ}

lemma NodeKind.Shaped.typeAlias (h : k.Shaped items) (hk : k.role = .typeAlias) :
    ∃ body, items = .child body .nil := by
  unfold NodeKind.Shaped at h
  split at h
  case h_3 => exact ⟨_, rfl⟩
  all_goals simp_all

lemma Expr.alpha_alias (hk : k.role = .typeAlias) (body : Expr ι) (rest : Items ι) (e' : Expr κ) :
    (Expr.node k target ty ann slots (.child body rest)).Alpha pairs e' ↔ body.Alpha pairs e' := by
  simp [Expr.Alpha, hk]

lemma Expr.alpha_node (hk : k.role ≠ .typeAlias) :
    (Expr.node k target ty ann slots items).Alpha pairs (.node k' target' ty' ann' slots' items') ↔
      k = k' ∧ TargetsCorrespond pairs target target' ∧ ty.Alpha pairs ty' ∧ ann.Alpha pairs ann' ∧
        slots.Alpha pairs slots' ∧ items.Alpha k.slotsUnderBinders pairs pairs items' := by
  rw [Expr.Alpha]
  exact fun _ _ h => absurd h hk

/-- Nothing is equal up to binders to an alias, which stands for its body on the left only. -/
lemma Expr.not_alpha_alias {held : ℕ → Expr ℕ} {bound : ℕ} (hk : k'.role = .typeAlias) :
    ∀ e : Expr ℕ, e.Lowered held uid₀ bound →
      ¬e.Alpha pairs (.node k' target' ty' ann' slots' items')
  | .var _ _ _, _ => id
  | .node k _ _ _ _ (.child body _), h => by
    by_cases halias : k.role = .typeAlias
    · rw [Expr.alpha_alias halias]
      exact body.not_alpha_alias hk h.2.2.2.2.2.1
    · rw [Expr.alpha_node halias]
      rintro ⟨rfl, -⟩
      exact halias hk
  | .node k _ _ _ _ .nil, h | .node k _ _ _ _ (.bind _ _ _), h
  | .node k _ _ _ _ (.scope _ _), h => by
    have halias : k.role ≠ .typeAlias := fun hk => by simpa using h.1.typeAlias hk
    rw [Expr.alpha_node halias]
    rintro ⟨rfl, -⟩
    exact halias hk

end Inert

section InertIff

variable {held : ℕ → Expr ℕ} (hμ : μ.Consistent uid₀)

include hμ

attribute [local grind] Expr.Alpha Items.Alpha Ty.Alpha Parts.Alpha Tys.Alpha Expr.Minted
  Items.Minted Ty.Minted Parts.Minted Tys.Minted Expr.Inert Items.Inert Ty.Inert Parts.Inert
  Tys.Inert Expr.Lowered Items.Lowered Ty.Lowered Parts.Lowered Tys.Lowered

/-- **What the walk does not reach is equal up to binders to itself, and declares only minted
binders, exactly when it is inert.** -/
lemma inert_iff : (∀ e : Expr ℕ, ∀ bound Γ pairs, List.Forall₂ (MintLog.InScope uid₀ μ) Γ pairs →
      e.Lowered held uid₀ bound → (e.Alpha pairs e ∧ e.Minted ↔ e.Inert Γ)) ∧
    (∀ is : Items ℕ, ∀ under bound Γ pairs, List.Forall₂ (MintLog.InScope uid₀ μ) Γ pairs →
      is.Lowered held uid₀ bound → (is.Alpha under pairs pairs is ∧ is.Minted ↔ is.Inert Γ)) ∧
    (∀ t : Ty ℕ, ∀ bound Γ pairs, List.Forall₂ (MintLog.InScope uid₀ μ) Γ pairs →
      t.Lowered held uid₀ bound → (t.Alpha pairs t ∧ t.Minted ↔ t.Inert Γ)) ∧
    (∀ ps : Parts ℕ, ∀ bound Γ pairs, List.Forall₂ (MintLog.InScope uid₀ μ) Γ pairs →
      ps.Lowered held uid₀ bound → (ps.Alpha pairs ps ∧ ps.Minted ↔ ps.Inert Γ)) ∧
    ∀ ts : Tys ℕ, ∀ bound Γ pairs, List.Forall₂ (MintLog.InScope uid₀ μ) Γ pairs →
      ts.Lowered held uid₀ bound → (ts.Alpha pairs ts ∧ ts.Minted ↔ ts.Inert Γ) := by
  apply trees_induction
  case var =>
    rintro n ty ann ihty ihann bound Γ pairs hΓ ⟨hn, hty, hann⟩
    have hself := corresponds_self_iff hμ hΓ hn
    grind
  case node =>
    rintro k target ty ann slots items ihty ihann ihslots ihitems bound Γ pairs hΓ
      ⟨hshape, htarget, hty, hann, hslots, hitems⟩
    rw [Expr.Inert, ← ihty _ _ _ hΓ hty, ← ihann _ _ _ hΓ hann, ← ihslots _ _ _ hΓ hslots,
      ← ihitems k.slotsUnderBinders _ _ _ hΓ hitems]
    by_cases hk : k.role = .typeAlias
    · obtain ⟨body, rfl⟩ := hshape.typeAlias hk
      rw [Expr.alpha_alias hk]
      exact ⟨fun h => absurd h.1 (body.not_alpha_alias hk hitems.1), fun h => absurd hk h.1⟩
    · have htargets : TargetsCorrespond pairs target target ↔
          ∀ n ∈ target, Scope.find Γ n = none := by
        cases target with
        | none => simp [TargetsCorrespond]
        | some n => simpa [TargetsCorrespond] using corresponds_self_iff hμ hΓ (htarget n rfl)
      rw [Expr.alpha_node hk, Expr.Minted, htargets]
      tauto
  case cross =>
    rintro n rest ih bound Γ pairs hΓ ⟨hn, hrest⟩
    simp [Parts.Alpha, Parts.Minted, Parts.Inert, ← ih _ _ _ (MintLog.InScope.cross hΓ hn) hrest]
  all_goals grind

end InertIff

end Names

end Cambra.Ir
