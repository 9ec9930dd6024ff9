import Cambra.Ccl.Chain

/-!
# Inlining a binding

`letMorphismInline` replaces the one read of a bound name by what it is bound to.  Types and
meanings of a term depend on the names it reads alone (`Typed.congr`, `Expr.den_congr`), so
substituting a term of the name's type keeps the type, and reads as the binding does: where the
bound term has a value the body sees it, and where it has none neither has the rewritten body, since
it reads the name (`letMorphismInline_exact`).
-/

namespace Cambra.Ccl

open Option

variable {W : Keys} (S : Scalars W) {Γ : Ctx}

open Cambra.Ccl.Expr

/-! ## Scopes -/

lemma Env.set_set (ρ : Env W) (x : Name) (v w : Dyn W) : (ρ.set x v).set x w = ρ.set x w := by
  funext y
  by_cases hy : y = x <;> simp [Env.set, hy]

variable {x y : Name} {e term : Expr} {s t : Ty}

lemma Env.set_comm (ρ : Env W) (h : y ≠ x) (v w : Dyn W) :
    (ρ.set x v).set y w = (ρ.set y w).set x v := by
  funext z
  grind [Env.set]

lemma Ctx.set_set (Γ : Ctx) (x : Name) (s t : Ty) : (Γ.set x s).set x t = Γ.set x t := by
  funext y
  by_cases hy : y = x <;> simp [Ctx.set, hy]

lemma Ctx.set_comm (Γ : Ctx) (h : y ≠ x) (s t : Ty) :
    (Γ.set x s).set y t = (Γ.set y t).set x s := by
  funext z
  grind [Ctx.set]

mutual

/-- A term's value depends on the names it reads. -/
lemma Expr.den_congr : ∀ (e : Expr) (t : Ty) {ρ ρ' : Env W},
    (∀ x, e.countFree x ≠ 0 → ρ x = ρ' x) → e.den S ρ t = e.den S ρ' t
  | .lit _ _, _, _, _, _ => rfl
  | .var x _, t, ρ, ρ', h => by rw [den, den, h x (by simp [countFree])]
  | .builtin _ _, _, _, _, _ | .proj _ _, _, _, _, _ => rfl
  | .apply a f _, t, ρ, ρ', h => by
    rw [den, den, Expr.den_congr f _ fun x hx => h x (by rw [countFree]; omega),
      Expr.den_congr a _ fun x hx => h x (by rw [countFree]; omega)]
  | .tuple es _, t, ρ, ρ', h => by
    cases t with
    | tuple ts => exact denTuple_congr es ts h
    | _ => rfl
  | .compose es _, t, ρ, ρ', h => by
    cases t with
    | fn a c => exact denChain_congr es a c h
    | _ => rfl
  | .letE y b e _, t, ρ, ρ', h => by
    rw [den, den, Expr.den_congr b _ fun x hx => h x (by rw [countFree]; omega)]
    cases b.den S ρ' b.ty with
    | none => rfl
    | some v =>
      refine Expr.den_congr e t fun x hx => ?_
      by_cases hxy : x = y
      · simp [Env.set, hxy]
      · simp only [Env.set, if_neg hxy]
        exact h x (by rw [countFree, if_neg (Ne.symm hxy)]; omega)

lemma denTuple_congr : ∀ (es : List Expr) (ts : List Ty) {ρ ρ' : Env W},
    (∀ x, countFrees x es ≠ 0 → ρ x = ρ' x) → denTuple S ρ es ts = denTuple S ρ' es ts
  | [], ts, _, _, _ => by cases ts <;> rfl
  | e :: es, [], _, _, _ => rfl
  | e :: es, t :: ts, ρ, ρ', h => by
    rw [denTuple, denTuple, Expr.den_congr e t fun x hx => h x (by rw [countFrees]; omega),
      denTuple_congr es ts fun x hx => h x (by rw [countFrees]; omega)]

lemma denChain_congr : ∀ (es : List Expr) (a c : Ty) {ρ ρ' : Env W},
    (∀ x, countFrees x es ≠ 0 → ρ x = ρ' x) → denChain S ρ es a c = denChain S ρ' es a c
  | [], _, _, _, _, _ => rfl
  | e :: es, a, c, ρ, ρ', h => by
    rw [denChain, denChain]
    cases e.ty.codomain with
    | none => rfl
    | some b =>
      dsimp only
      rw [Expr.den_congr e _ fun x hx => h x (by rw [countFrees]; omega),
        denChain_congr es b c fun x hx => h x (by rw [countFrees]; omega)]

end

mutual

/-- A term's type depends on the types of the names it reads. -/
lemma Typed.congr : ∀ {e : Expr} {t : Ty} {Γ Γ' : Ctx}, Typed Γ e t →
    (∀ x, e.countFree x ≠ 0 → Γ x = Γ' x) → Typed Γ' e t
  | .lit _ _, _, _, _, .lit l, _ => .lit l
  | .var x _, _, _, _, .var hx ht, h => .var (by rw [← h x (by simp [countFree]), hx]) ht
  | .builtin _ _, _, _, _, .builtin hb ht, _ => .builtin hb ht
  | .proj _ _, _, _, _, .proj hi ht, _ => .proj hi ht
  | .apply a f _, _, _, _, .apply ha hf, h =>
    .apply (ha.congr fun x hx => h x (by rw [countFree]; omega))
      (hf.congr fun x hx => h x (by rw [countFree]; omega))
  | .tuple es _, _, _, _, .tuple hes, h => .tuple (hes.congr h)
  | .compose es _, _, _, _, .compose hlen hes, h => .compose hlen (hes.congr h)
  | .letE y b e _, _, _, _, .letE hb he, h =>
    .letE (hb.congr fun x hx => h x (by rw [countFree]; omega)) (he.congr fun x hx => by
      by_cases hxy : x = y
      · simp [Ctx.set, hxy]
      · simp only [Ctx.set, if_neg hxy]
        exact h x (by rw [countFree, if_neg (Ne.symm hxy)]; omega))

lemma TypedTuple.congr : ∀ {es : List Expr} {ts : List Ty} {Γ Γ' : Ctx}, TypedTuple Γ es ts →
    (∀ x, countFrees x es ≠ 0 → Γ x = Γ' x) → TypedTuple Γ' es ts
  | [], _, _, _, .nil, _ => .nil
  | e :: es, _, _, _, .cons he hes, h =>
    .cons (he.congr fun x hx => h x (by rw [countFrees]; omega))
      (hes.congr fun x hx => h x (by rw [countFrees]; omega))

lemma TypedChain.congr : ∀ {es : List Expr} {a c : Ty} {Γ Γ' : Ctx}, TypedChain Γ es a c →
    (∀ x, countFrees x es ≠ 0 → Γ x = Γ' x) → TypedChain Γ' es a c
  | [], _, _, _, _, .nil, _ => .nil
  | e :: es, _, _, _, _, .cons he hes, h =>
    .cons (he.congr fun x hx => h x (by rw [countFrees]; omega))
      (hes.congr fun x hx => h x (by rw [countFrees]; omega))

end

/-! ## Substitution -/

/-- What replacing `x` by `term` makes of a term's type and meaning: the type stays; where `term`
has a value the result reads as with `x` bound to it, and where it has none a result that reads `x`
has none. -/
structure Substituted (x : Name) (term e e' : Expr) (s t : Ty) (Γ : Ctx) : Prop where
  typed : Typed Γ e' t
  value : ∀ (ρ : Env W) v, term.den S ρ s = some v → e'.den S ρ t = e.den S (ρ.set x ⟨s, v⟩) t
  missing : ∀ ρ : Env W, term.den S ρ s = none → e.countFree x ≠ 0 → e'.den S ρ t = none

/-- A term that does not read `x` is left as it is. -/
lemma Substituted.unread (he : Typed (Γ.set x s) e t) (h : e.countFree x = 0) :
    Substituted S x term e e s t Γ where
  typed := he.congr fun y hy => by
    have hyx : y ≠ x := by rintro rfl; exact hy h
    simp [Ctx.set, hyx]
  value ρ v _ := e.den_congr S t fun y hy => by
    have hyx : y ≠ x := by rintro rfl; exact hy h
    simp [Env.set, hyx]
  missing _ _ hne := absurd h hne

/-- A term under a binder that `term` does not read. -/
lemma Typed.under_binder {r : Ty} (h : Typed Γ term s) (hy : term.isFree y = false) :
    Typed (Γ.set y r) term s :=
  h.congr fun z hz => by
    have hzy : z ≠ y := by
      rintro rfl
      simp [isFree] at hy
      exact hz hy
    simp [Ctx.set, hzy]

lemma Expr.den_under_binder (hy : term.isFree y = false) (ρ : Env W) (w : Dyn W) :
    term.den S (ρ.set y w) s = term.den S ρ s :=
  term.den_congr S s fun z hz => by
    have hzy : z ≠ y := by
      rintro rfl
      simp [isFree] at hy
      exact hz hy
    simp [Env.set, hzy]

lemma discharges_length {x : Name} {term : Expr} : ∀ {es es' : List Expr},
    discharges x term es = some es' → es'.length = es.length
  | [], _, h => by cases h; rfl
  | e :: es, _, h => by
    obtain ⟨e', -, h⟩ := bind_eq_some_iff.mp h
    obtain ⟨es', hes', h⟩ := bind_eq_some_iff.mp h
    cases h
    simp [discharges_length hes']

lemma composeTy_eq {es : List Expr} {a c : Ty} (hne : es ≠ []) (h : TypedChain Γ es a c) :
    composeTy es t = .fn a c := by
  have hty := chainTy_eq hne h
  unfold chainTy at hty
  unfold composeTy
  cases hd : es.head?.bind (·.ty.domain) <;> cases hc : es.getLast?.bind (·.ty.codomain) <;>
    simp_all [Ty.funOrHole]

mutual

lemma discharge_substituted {x : Name} {s : Ty} : ∀ {e e' term : Expr} {t : Ty} {Γ : Ctx},
    Typed (Γ.set x s) e t → Typed Γ term s → discharge x term e = some e' →
      Substituted S x term e e' s t Γ
  | .lit _ _, _, _, _, _, he, _, h | .builtin _ _, _, _, _, _, he, _, h
  | .proj _ _, _, _, _, _, he, _, h => by
    cases h
    exact .unread S he rfl
  | .var y u, e', term, t, Γ, he, hterm, h => by
    by_cases hy : y = x
    · subst hy
      obtain rfl : term = e' := by simpa [discharge] using h
      cases he with | var hx _ =>
      obtain rfl : s = u := by simpa [Ctx.set] using hx
      exact ⟨hterm, fun ρ v hv => by simp [den, Env.set, hv], fun ρ hv _ => hv⟩
    · obtain rfl : .var y u = e' := by simpa [discharge, hy] using h
      exact .unread S he (by simp [countFree, hy])
  | .apply a f u, e', term, t, Γ, he, hterm, h => by
    obtain ⟨a', ha', h⟩ := bind_eq_some_iff.mp h
    obtain ⟨f', hf', h⟩ := bind_eq_some_iff.mp h
    cases h
    cases he with | apply ha hf =>
    have iha := discharge_substituted ha hterm ha'
    have ihf := discharge_substituted hf hterm hf'
    refine ⟨.apply iha.typed ihf.typed, fun ρ v hv => ?_, fun ρ hv hne => ?_⟩
    · rw [den_apply_of S ρ iha.typed.ty_eq, den_apply_of S _ ha.ty_eq, iha.value ρ v hv,
        ihf.value ρ v hv]
    · rw [den_apply_of S ρ iha.typed.ty_eq]
      have hne : a.countFree x ≠ 0 ∨ f.countFree x ≠ 0 := by rw [countFree] at hne; omega
      rcases hne.imp (iha.missing ρ hv) (ihf.missing ρ hv) with h | h <;> simp [h]
  | .tuple es u, e', term, t, Γ, he, hterm, h => by
    obtain ⟨es', hes', h⟩ := bind_eq_some_iff.mp h
    cases h
    cases he with | tuple hes =>
    obtain ⟨htyped, hvalue, hmissing⟩ := dischargeTuple_substituted hes hterm hes'
    exact ⟨.tuple htyped, hvalue, hmissing⟩
  | .compose es u, e', term, t, Γ, he, hterm, h => by
    rw [discharge] at h
    split at h
    · cases h
      exact .unread S he ‹_›
    obtain ⟨es', hes', h⟩ := bind_eq_some_iff.mp h
    cases h
    cases he with | compose hlen hes =>
    obtain ⟨htyped, hvalue, hmissing⟩ := dischargeChain_substituted hes hterm hes'
    have hlen' : 2 ≤ es'.length := by rwa [discharges_length hes']
    have hne : es' ≠ [] := by rintro rfl; simp at hlen'
    rw [composeTy_eq hne htyped]
    exact ⟨.compose hlen' htyped, hvalue, hmissing⟩
  | .letE y b e u, e', term, t, Γ, he, hterm, h => by
    rw [discharge] at h
    by_cases hcount : b.countFree x + (if y = x then 0 else e.countFree x) = 0
    · rw [if_pos hcount] at h
      cases h
      exact .unread S he hcount
    · rw [if_neg hcount] at h
      obtain ⟨b', hb', hout⟩ := bind_eq_some_iff.mp h
      cases he with | letE hb hbody =>
      rename_i r
      have ihb := discharge_substituted hb hterm hb'
      split at hout
      · -- The binding shadows `x`: its body is left as it is.
        rename_i hyx
        subst hyx
        cases hout
        rw [Ctx.set_set] at hbody
        refine ⟨.letE ihb.typed hbody, fun ρ v hv => ?_, fun ρ hv hne => ?_⟩
        · rw [den, den, ihb.typed.ty_eq, hb.ty_eq, ihb.value ρ v hv]
          simp [Env.set_set]
        · rw [countFree, if_pos rfl, Nat.add_zero] at hne
          rw [den, ihb.typed.ty_eq, ihb.missing ρ hv hne]
          rfl
      · rename_i hyx
        split at hout
        · cases hout
        rename_i hfree
        rw [Bool.not_eq_true] at hfree
        obtain ⟨e'', he'', hout⟩ := bind_eq_some_iff.mp hout
        cases hout
        rw [Ctx.set_comm Γ hyx] at hbody
        have ihe := discharge_substituted hbody (hterm.under_binder hfree) he''
        refine ⟨.letE ihb.typed ihe.typed, fun ρ v hv => ?_, fun ρ hv hne => ?_⟩
        · rw [den, den, ihb.typed.ty_eq, hb.ty_eq, ihb.value ρ v hv]
          cases b.den S (ρ.set x ⟨s, v⟩) r with
          | none => rfl
          | some w =>
            change e''.den S (ρ.set y ⟨r, w⟩) u = e.den S ((ρ.set x ⟨s, v⟩).set y ⟨r, w⟩) u
            rw [Env.set_comm ρ hyx, ihe.value _ v]
            rw [den_under_binder S hfree, hv]
        · rw [countFree, if_neg hyx] at hne
          rw [den, ihb.typed.ty_eq]
          by_cases hbx : b.countFree x = 0
          · cases b'.den S ρ r with
            | none => rfl
            | some w =>
              exact ihe.missing _ (by rw [den_under_binder S hfree, hv]) (by omega)
          · rw [ihb.missing ρ hv hbx]
            rfl

lemma dischargeTuple_substituted {x : Name} {s : Ty} : ∀ {es es' : List Expr} {term : Expr}
    {ts : List Ty} {Γ : Ctx}, TypedTuple (Γ.set x s) es ts → Typed Γ term s →
      discharges x term es = some es' →
      TypedTuple Γ es' ts ∧ (∀ (ρ : Env W) v, term.den S ρ s = some v →
          denTuple S ρ es' ts = denTuple S (ρ.set x ⟨s, v⟩) es ts) ∧
        (∀ ρ : Env W, term.den S ρ s = none → countFrees x es ≠ 0 → denTuple S ρ es' ts = none)
  | [], _, _, _, _, .nil, _, h => by
    cases h
    exact ⟨.nil, fun _ _ _ => rfl, fun _ _ h => absurd rfl h⟩
  | e :: es, _, term, _, Γ, .cons he hes, hterm, h => by
    obtain ⟨e', he', h⟩ := bind_eq_some_iff.mp h
    obtain ⟨es', hes', h⟩ := bind_eq_some_iff.mp h
    cases h
    have ihe := discharge_substituted he hterm he'
    obtain ⟨htyped, hvalue, hmissing⟩ := dischargeTuple_substituted hes hterm hes'
    refine ⟨.cons ihe.typed htyped, fun ρ v hv => ?_, fun ρ hv hne => ?_⟩
    · rw [denTuple, denTuple, ihe.value ρ v hv, hvalue ρ v hv]
    · have hne : e.countFree x ≠ 0 ∨ countFrees x es ≠ 0 := by rw [countFrees] at hne; omega
      rcases hne.imp (ihe.missing ρ hv) (hmissing ρ hv) with h | h <;> simp [denTuple, h]

lemma dischargeChain_substituted {x : Name} {s : Ty} : ∀ {es es' : List Expr} {term : Expr}
    {a c : Ty} {Γ : Ctx}, TypedChain (Γ.set x s) es a c → Typed Γ term s →
      discharges x term es = some es' →
      TypedChain Γ es' a c ∧ (∀ (ρ : Env W) v, term.den S ρ s = some v →
          denChain S ρ es' a c = denChain S (ρ.set x ⟨s, v⟩) es a c) ∧
        (∀ ρ : Env W, term.den S ρ s = none → countFrees x es ≠ 0 → denChain S ρ es' a c = none)
  | [], _, _, _, _, _, .nil, _, h => by
    cases h
    exact ⟨.nil, fun _ _ _ => rfl, fun _ _ h => absurd rfl h⟩
  | e :: es, _, term, _, _, Γ, .cons he hes, hterm, h => by
    obtain ⟨e', he', h⟩ := bind_eq_some_iff.mp h
    obtain ⟨es', hes', h⟩ := bind_eq_some_iff.mp h
    cases h
    have ihe := discharge_substituted he hterm he'
    obtain ⟨htyped, hvalue, hmissing⟩ := dischargeChain_substituted hes hterm hes'
    refine ⟨.cons ihe.typed htyped, fun ρ v hv => ?_, fun ρ hv hne => ?_⟩
    · rw [denChain_cons S ρ ihe.typed, denChain_cons S _ he, ihe.value ρ v hv, hvalue ρ v hv]
    · rw [denChain_cons S ρ ihe.typed]
      have hne : e.countFree x ≠ 0 ∨ countFrees x es ≠ 0 := by rw [countFrees] at hne; omega
      rcases hne.imp (ihe.missing ρ hv) (hmissing ρ hv) with h | h <;> simp [PFn.seq, h]

end

/-- **Inlining a binding keeps type and meaning.** -/
lemma letMorphismInline_exact {e' : Expr} (ρ : Env W) (ht : Typed Γ e t)
    (h : letMorphismInline e = .rewrote e') : Typed Γ e' t ∧ e'.den S ρ t = e.den S ρ t := by
  unfold letMorphismInline at h
  split at h
  case h_2 => cases h
  rename_i x b body u
  split at h
  case isFalse => cases h
  rename_i hguard
  split at h
  case h_2 => cases h
  rename_i e'' hd
  cases h
  cases ht with | letE hb hbody =>
  have hone : body.countFree x ≠ 0 := by
    simp only [Bool.and_eq_true, beq_iff_eq] at hguard
    omega
  have hsub := discharge_substituted S hbody hb hd
  refine ⟨hsub.typed, ?_⟩
  rw [den, hb.ty_eq]
  cases hv : b.den S ρ _ with
  | none => exact hsub.missing ρ hv hone
  | some v => exact hsub.value ρ v hv

end Cambra.Ccl
