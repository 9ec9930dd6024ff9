import Cambra.Ccl.Uncurry
import Cambra.Ccl.Inline

/-!
# What simplification preserves

A rule that fires on a typed term gives a typed term with the same meaning exactly where it *keeps*
(`Rule.Keeps`): the eleven exact rules keep everywhere, the eight others where what they drop is
defined wherever the rest is (`Rule.fire_iff`).  Types and meanings are congruent in every position
of a term, so a pass preserves the meaning of a whole term if every rule that fires in it keeps
(`simplifyOnce_preserves`), and so do all passes together.

The conditions are not idle.  `⟨id, variant_project(a)⟩ ≫ const(1)` is defined at the keys that
carry the tag `a`, and `constReduce` makes it `const(1)`, defined at all of them: the guard of the
rule looks at the dropped step itself and not into its arms.
-/

namespace Cambra.Ccl

open Option

variable {W : Keys} (S : Scalars W)

open Cambra.Ccl.Expr

/-! ## One rule -/

/-- What a rule drops from a term is defined wherever the rest is. -/
def Rule.Keeps (ρ : Env W) : Rule → Expr → Prop
  | .constReduce => AbsorbedWindow S ρ Ccl.constReduce keptConstant
  | .productBeta => AbsorbedWindow S ρ Ccl.productBeta keptArm
  | .applyConstantValued => AbsorbedWindow S ρ Ccl.applyConstantValued keptSteps
  | .cccUniversal => ReadsPair
  | .mapDomainOfIteration => TailDefined S ρ
  | .literalTupleProjection => OthersDefined S ρ
  | .uncurryCurried => ConstantNestDefined S ρ
  | .exponentialEta => CurriedTotal S ρ
  | _ => fun _ => True

/-- The rewritten term is typed: only `cccUniversal` can give a term that is not. -/
def Rule.Retypes : Rule → Expr → Prop
  | .cccUniversal => ReadsPair
  | _ => fun _ => True

variable {e e' : Expr} {t : Ty}

lemma Outcome.ofOption_eq {o : Option Expr} (h : Outcome.ofOption o = .rewrote e) : o = some e := by
  cases o with
  | none => cases h
  | some e' => cases h; rfl

/-- What a rule makes of a typed term: the new term is typed where the rule retypes, and has the
type and the meaning of the old one exactly where the rule keeps. -/
def Rule.Spec (ρ : Env W) (rule : Rule) (Γ : Ctx) (e e' : Expr) (t : Ty) : Prop :=
  (rule.Retypes e → Typed Γ e' t) ∧ ((Typed Γ e' t ∧ e'.den S ρ t = e.den S ρ t) ↔ rule.Keeps S ρ e)

section

variable {S} {Γ : Ctx} {ρ : Env W} {Q : Prop} {o : Option Expr}
  (h : Outcome.ofOption o = .rewrote e')

include h

lemma exact_spec (hexact : o = some e' → Typed Γ e' t ∧ e'.den S ρ t = e.den S ρ t) :
    (Q → Typed Γ e' t) ∧ ((Typed Γ e' t ∧ e'.den S ρ t = e.den S ρ t) ↔ True) :=
  have hexact := hexact (Outcome.ofOption_eq h)
  ⟨fun _ => hexact.1, iff_true_intro hexact⟩

lemma dropping_spec {P : Prop}
    (hdrop : o = some e' → Typed Γ e' t ∧ (e'.den S ρ t = e.den S ρ t ↔ P)) :
    (Q → Typed Γ e' t) ∧ ((Typed Γ e' t ∧ e'.den S ρ t = e.den S ρ t) ↔ P) :=
  have hdrop := hdrop (Outcome.ofOption_eq h)
  ⟨fun _ => hdrop.1, (and_iff_right hdrop.1).trans hdrop.2⟩

end

/-- **A rule that fires keeps the type and the meaning exactly where what it drops is defined
wherever the rest is.** -/
theorem Rule.fire_spec {rule : Rule} {Γ : Ctx} (ρ : Env W) (ht : Typed Γ e t)
    (h : rule.fire e = .rewrote e') : rule.Spec S ρ Γ e e' t := by
  cases rule with
  | letMorphismInline =>
    have hexact := letMorphismInline_exact S ρ ht h
    exact ⟨fun _ => hexact.1, iff_true_intro hexact⟩
  | composeIdentity => exact exact_spec h (ExactWindow.pairwise S ρ (composeIdentity_exact S ρ) ht)
  | partialLookup => exact exact_spec h (ExactWindow.pairwise S ρ (partialLookup_exact S ρ) ht)
  | composeConstantFunction =>
    exact exact_spec h (ExactWindow.pairwise S ρ (composeConstantFunction_exact S ρ) ht)
  | exponentialBeta => exact exact_spec h (ExactWindow.pairwise S ρ (exponentialBeta_exact S ρ) ht)
  | constApply => exact exact_spec h (ExactWindow.pairwise S ρ (constApply_exact S ρ) ht)
  | applyCompose => exact exact_spec h (ExactWindow.pairwise S ρ (applyCompose_exact S ρ) ht)
  | applyZip => exact exact_spec h (ExactWindow.pairwise S ρ (applyZip_exact S ρ) ht)
  | zipDistributeCompose =>
    exact exact_spec h (ExactWindow.pairwise S ρ (zipDistributeCompose_exact S ρ) ht)
  | flattenCompose => exact exact_spec h (flattenCompose_exact S ρ ht)
  | productEta => exact exact_spec h (productEta_exact S ρ ht)
  | constReduce => exact dropping_spec h (DroppingWindow.pairwise S ρ (constReduce_dropping S ρ) ht)
  | productBeta => exact dropping_spec h (DroppingWindow.pairwise S ρ (productBeta_dropping S ρ) ht)
  | applyConstantValued =>
    exact dropping_spec h (DroppingWindow.pairwise S ρ (applyConstantValued_dropping S ρ) ht)
  | mapDomainOfIteration => exact dropping_spec h (mapDomainOfIteration_iff S ρ ht)
  | literalTupleProjection => exact dropping_spec h (literalTupleProjection_iff S ρ ht)
  | uncurryCurried => exact dropping_spec h (uncurryCurried_iff S ρ ht)
  | exponentialEta => exact dropping_spec h (exponentialEta_iff S ρ ht)
  | cccUniversal =>
    have hiff := cccUniversal_iff S ρ ht (Outcome.ofOption_eq h)
    exact ⟨fun hr => (hiff.mpr hr).1, hiff⟩

/-! ## One pass -/

/-- A term and its rewriting have one type and one meaning in a scope. -/
def Preserved (Γ : Ctx) (e e' : Expr) (t : Ty) : Prop :=
  Typed Γ e' t ∧ ∀ ρ : Env W, ρ.Fits Γ → e'.den S ρ t = e.den S ρ t

/-- Each rule of a list that fires keeps, at what the rules before it left. -/
def KeepsRules (Γ : Ctx) : List Rule → Expr → Prop
  | [], _ => True
  | r :: rs, e =>
    match r.fire e with
    | .declined => KeepsRules Γ rs e
    | .rewrote e' =>
      (r.Retypes e ∧ ∀ ρ : Env W, ρ.Fits Γ → r.Keeps S ρ e) ∧ KeepsRules Γ rs e'
    | .aborted => True

/-- Each rule that fires at the root of a term keeps. -/
def KeepsNode (Γ : Ctx) (e : Expr) (hasIteration : Bool) : Prop :=
  KeepsRules S Γ Rule.alwaysSafe e ∧ ∀ out, applyRules Rule.alwaysSafe e = some out →
    (hasIteration || e.isIteration) = false → KeepsRules S Γ Rule.discarding out.2

mutual

/-- Each rule that fires in a pass over a term keeps. -/
def KeepsOnce : Ctx → Expr → Prop
  | Γ, .apply a f t => KeepsOnce Γ f ∧ KeepsOnce Γ a ∧
    ∀ out out', simplifyOnce f = some out → simplifyOnce a = some out' →
      KeepsNode S Γ (.apply out'.2.2 out.2.2 t) (out.2.1 || out'.2.1)
  | Γ, .tuple es t => KeepsEach Γ es ∧ ∀ out, simplifyEach es = some out →
      KeepsNode S Γ (.tuple out.2.2 t) out.2.1
  | Γ, .compose es t => KeepsEach Γ es ∧ ∀ out, simplifyEach es = some out →
      KeepsNode S Γ (.compose out.2.2 t) out.2.1
  | Γ, .letE x b e t => KeepsOnce Γ b ∧ KeepsOnce (Γ.set x b.ty) e ∧
    ∀ out out', simplifyOnce b = some out → simplifyOnce e = some out' →
      KeepsNode S Γ (.letE x out.2.2 out'.2.2 t) (out.2.1 || out'.2.1)
  | Γ, .lit l t => KeepsNode S Γ (.lit l t) false
  | Γ, .var x t => KeepsNode S Γ (.var x t) false
  | Γ, .builtin b t => KeepsNode S Γ (.builtin b t) false
  | Γ, .proj i t => KeepsNode S Γ (.proj i t) false

def KeepsEach : Ctx → List Expr → Prop
  | _, [] => True
  | Γ, e :: es => KeepsOnce Γ e ∧ KeepsEach Γ es

end

variable {Γ : Ctx}

lemma Preserved.refl (h : Typed Γ e t) : Preserved S Γ e e t := ⟨h, fun _ _ => rfl⟩

lemma Preserved.trans {e'' : Expr} (h : Preserved S Γ e e' t) (h' : Preserved S Γ e' e'' t) :
    Preserved S Γ e e'' t :=
  ⟨h'.1, fun ρ hρ => (h'.2 ρ hρ).trans (h.2 ρ hρ)⟩

lemma applyRules_preserves {rs : List Rule} {out : Bool × Expr} (ht : Typed Γ e t)
    (hk : KeepsRules S Γ rs e) (h : applyRules rs e = some out) : Preserved S Γ e out.2 t := by
  induction rs generalizing e out with
  | nil =>
    cases h
    exact .refl S ht
  | cons r rs ih =>
    rw [applyRules] at h
    rw [KeepsRules] at hk
    split at h
    · rename_i hr
      rw [hr] at hk
      exact ih ht hk h
    · rename_i e' hr
      rw [hr] at hk
      obtain ⟨out', hout, rfl⟩ := map_eq_some_iff.mp h
      obtain ⟨⟨hretypes, hkeeps⟩, hk⟩ := hk
      have hfire : Preserved S Γ e e' t :=
        ⟨(Rule.fire_spec S (fun _ => none) ht hr).1 hretypes, fun ρ hρ =>
          ((Rule.fire_spec S ρ ht hr).2.mpr (hkeeps ρ hρ)).2⟩
      have hrest := ih hfire.1 hk hout
      exact hfire.trans S hrest
    · cases h

lemma finishNode_preserves {changed hasIteration : Bool} {out : Bool × Bool × Expr}
    (ht : Typed Γ e t) (hk : KeepsNode S Γ e hasIteration)
    (h : finishNode e changed hasIteration = some out) : Preserved S Γ e out.2.2 t := by
  obtain ⟨⟨fired, e'⟩, hrules, h⟩ := bind_eq_some_iff.mp h
  cases h
  obtain ⟨⟨c, e₁⟩, hsafe, hrules⟩ := bind_eq_some_iff.mp hrules
  have h₁ := applyRules_preserves S ht hk.1 hsafe
  dsimp only at hrules
  split at hrules
  · cases hrules
    exact h₁
  · rename_i hit
    obtain ⟨⟨c', e₂⟩, hdisc, hrules⟩ := bind_eq_some_iff.mp hrules
    cases hrules
    have hkd := hk.2 _ hsafe (Bool.eq_false_iff.mpr hit)
    have h₂ := applyRules_preserves S h₁.1 hkd hdisc
    exact h₁.trans S h₂

/-- The environment of a `let` body fits its scope. -/
lemma Env.Fits.set {ρ : Env W} (h : ρ.Fits Γ) (x : Name) {s : Ty} (v : s.Val W) :
    (ρ.set x ⟨s, v⟩).Fits (Γ.set x s) := by
  intro y t hy
  by_cases hyx : y = x
  · subst hyx
    obtain rfl : s = t := by simpa [Ctx.set] using hy
    exact ⟨v, by simp [Env.set]⟩
  · simp only [Ctx.set, if_neg hyx] at hy
    simp only [Env.set, if_neg hyx]
    exact h y t hy

mutual

/-- **A pass in which every rule that fires keeps preserves type and meaning.** -/
lemma simplifyOnce_preserves : ∀ {e : Expr} {t : Ty} {Γ : Ctx} {out : Bool × Bool × Expr},
    Typed Γ e t → KeepsOnce S Γ e → simplifyOnce e = some out → Preserved S Γ e out.2.2 t
  | .lit _ _, _, _, _, ht, hk, h | .var _ _, _, _, _, ht, hk, h
  | .builtin _ _, _, _, _, ht, hk, h | .proj _ _, _, _, _, ht, hk, h =>
    finishNode_preserves S ht hk h
  | .apply a f u, t, Γ, out, ht, hk, h => by
    obtain ⟨outf, hf, h⟩ := bind_eq_some_iff.mp h
    obtain ⟨outa, ha, h⟩ := bind_eq_some_iff.mp h
    obtain ⟨hkf, hka, hnode⟩ := hk
    cases ht with | apply hta htf =>
    have ihf := simplifyOnce_preserves htf hkf hf
    have iha := simplifyOnce_preserves hta hka ha
    have hnew : Preserved S Γ (.apply a f u) (.apply outa.2.2 outf.2.2 u) u := by
      refine ⟨.apply iha.1 ihf.1, fun ρ hρ => ?_⟩
      rw [den_apply_of S ρ iha.1.ty_eq, den_apply_of S ρ hta.ty_eq, iha.2 ρ hρ, ihf.2 ρ hρ]
    exact hnew.trans S (finishNode_preserves S hnew.1 (hnode _ _ hf ha) h)
  | .tuple es u, t, Γ, out, ht, hk, h => by
    obtain ⟨outs, hes, h⟩ := bind_eq_some_iff.mp h
    obtain ⟨hke, hnode⟩ := hk
    cases ht with | tuple htes =>
    rename_i ts _
    obtain ⟨hty, hden⟩ := simplifyEach_tuple htes hke hes
    have hnew : Preserved S Γ (.tuple es (.tuple ts)) (.tuple outs.2.2 (.tuple ts)) (.tuple ts) :=
      ⟨.tuple hty, hden⟩
    exact hnew.trans S (finishNode_preserves S hnew.1 (hnode _ hes) h)
  | .compose es u, t, Γ, out, ht, hk, h => by
    obtain ⟨outs, hes, h⟩ := bind_eq_some_iff.mp h
    obtain ⟨hke, hnode⟩ := hk
    cases ht with | compose hlen htes =>
    rename_i a c _
    obtain ⟨hty, hlen', hden⟩ := simplifyEach_chain htes hke hes
    have hnew : Preserved S Γ (.compose es (.fn a c)) (.compose outs.2.2 (.fn a c)) (.fn a c) :=
      ⟨.compose (by rwa [hlen']) hty, hden⟩
    exact hnew.trans S (finishNode_preserves S hnew.1 (hnode _ hes) h)
  | .letE x b e u, t, Γ, out, ht, hk, h => by
    obtain ⟨outb, hb, h⟩ := bind_eq_some_iff.mp h
    obtain ⟨oute, he, h⟩ := bind_eq_some_iff.mp h
    obtain ⟨hkb, hke, hnode⟩ := hk
    cases ht with | letE htb hte =>
    rw [htb.ty_eq] at hke
    have ihb := simplifyOnce_preserves htb hkb hb
    have ihe := simplifyOnce_preserves hte hke he
    have hnew : Preserved S Γ (.letE x b e u) (.letE x outb.2.2 oute.2.2 u) u := by
      refine ⟨.letE ihb.1 ihe.1, fun ρ hρ => ?_⟩
      rw [den, den, ihb.1.ty_eq, htb.ty_eq, ihb.2 ρ hρ]
      cases b.den S ρ _ with
      | none => rfl
      | some v => exact ihe.2 _ (hρ.set x v)
    exact hnew.trans S (finishNode_preserves S hnew.1 (hnode _ _ hb he) h)

lemma simplifyEach_tuple : ∀ {es : List Expr} {ts : List Ty} {Γ : Ctx}
    {out : Bool × Bool × List Expr}, TypedTuple Γ es ts → KeepsEach S Γ es →
      simplifyEach es = some out → TypedTuple Γ out.2.2 ts ∧
        ∀ ρ : Env W, ρ.Fits Γ → denTuple S ρ out.2.2 ts = denTuple S ρ es ts
  | [], _, _, _, .nil, _, h => by
    cases h
    exact ⟨.nil, fun _ _ => rfl⟩
  | e :: es, _, _, _, .cons he hes, hk, h => by
    obtain ⟨oute, hoe, h⟩ := bind_eq_some_iff.mp h
    obtain ⟨outs, hos, h⟩ := bind_eq_some_iff.mp h
    cases h
    have ihe := simplifyOnce_preserves he hk.1 hoe
    obtain ⟨hty, hden⟩ := simplifyEach_tuple hes hk.2 hos
    refine ⟨.cons ihe.1 hty, fun ρ hρ => ?_⟩
    rw [denTuple, denTuple, ihe.2 ρ hρ, hden ρ hρ]

lemma simplifyEach_chain : ∀ {es : List Expr} {a c : Ty} {Γ : Ctx}
    {out : Bool × Bool × List Expr}, TypedChain Γ es a c → KeepsEach S Γ es →
      simplifyEach es = some out → TypedChain Γ out.2.2 a c ∧ out.2.2.length = es.length ∧
        ∀ ρ : Env W, ρ.Fits Γ → denChain S ρ out.2.2 a c = denChain S ρ es a c
  | [], _, _, _, _, .nil, _, h => by
    cases h
    exact ⟨.nil, rfl, fun _ _ => rfl⟩
  | e :: es, _, _, _, _, .cons he hes, hk, h => by
    obtain ⟨oute, hoe, h⟩ := bind_eq_some_iff.mp h
    obtain ⟨outs, hos, h⟩ := bind_eq_some_iff.mp h
    cases h
    have ihe := simplifyOnce_preserves he hk.1 hoe
    obtain ⟨hty, hlen, hden⟩ := simplifyEach_chain hes hk.2 hos
    refine ⟨.cons ihe.1 hty, by simp [hlen], fun ρ hρ => ?_⟩
    rw [denChain_cons S ρ ihe.1, denChain_cons S ρ he, ihe.2 ρ hρ, hden ρ hρ]

end

/-! ### A pass that changes nothing -/

lemma KeepsRules.of_unchanged {rs : List Rule} (h : applyRules rs e = some (false, e')) :
    KeepsRules S Γ rs e ∧ e' = e := by
  induction rs with
  | nil =>
    cases h
    exact ⟨trivial, rfl⟩
  | cons r rs ih =>
    rw [applyRules] at h
    rw [KeepsRules]
    cases hr : r.fire e <;> rw [hr] at h
    · exact ih h
    · obtain ⟨out, -, hout⟩ := map_eq_some_iff.mp h
      cases hout
    · cases h

lemma KeepsNode.of_unchanged {hasIteration j : Bool}
    (h : finishNode e false hasIteration = some (false, j, e')) : KeepsNode S Γ e hasIteration := by
  obtain ⟨⟨fired, e₁⟩, hfired, hboth⟩ := bind_eq_some_iff.mp h
  obtain ⟨⟨c, e₂⟩, hsafe, hrules⟩ := bind_eq_some_iff.mp hfired
  obtain ⟨hc, -⟩ := Prod.mk.inj (Option.some.inj hboth)
  obtain rfl := (Bool.or_eq_false_iff.mp hc).2
  dsimp only at hrules
  split at hrules
  · rename_i hit
    cases hrules
    exact ⟨(KeepsRules.of_unchanged S hsafe).1, fun _ _ hnot => absurd hit (by simp [hnot])⟩
  · obtain ⟨⟨c', e₃⟩, hdisc, hboth⟩ := bind_eq_some_iff.mp hrules
    obtain ⟨hc, rfl⟩ := Prod.mk.inj (Option.some.inj hboth)
    obtain ⟨rfl, rfl⟩ := Bool.or_eq_false_iff.mp hc
    obtain ⟨hkeeps, rfl⟩ := KeepsRules.of_unchanged S (Γ := Γ) hsafe
    refine ⟨hkeeps, fun out hout _ => ?_⟩
    obtain rfl := Option.some.inj (hsafe.symm.trans hout)
    exact (KeepsRules.of_unchanged S hdisc).1

/-- An application no part of which a pass changes. -/
lemma KeepsOnce.apply {a f : Expr} {u : Ty} (hf : KeepsOnce S Γ f) (ha : KeepsOnce S Γ a)
    (hf' : simplifyOnce f = some (false, false, f)) (ha' : simplifyOnce a = some (false, false, a))
    (h : finishNode (.apply a f u) false false = some (false, false, .apply a f u)) :
    KeepsOnce S Γ (.apply a f u) := by
  refine ⟨hf, ha, fun out out' hout hout' => ?_⟩
  obtain rfl := Option.some.inj (hf'.symm.trans hout)
  obtain rfl := Option.some.inj (ha'.symm.trans hout')
  exact KeepsNode.of_unchanged S h

/-! ## All passes -/

/-- The term after `n` passes that each changed something. -/
def passes : ℕ → Expr → Option Expr
  | 0, e => some e
  | n + 1, e => do
    let (changed, _, e) ← simplifyOnce e
    if changed then passes n e else none

/-- Each rule that fires in any pass over a term keeps. -/
def KeepsThroughout (Γ : Ctx) (e : Expr) : Prop := ∀ n e', passes n e = some e' → KeepsOnce S Γ e'

lemma KeepsThroughout.next {j : Bool} (h : KeepsThroughout S Γ e)
    (he : simplifyOnce e = some (true, j, e')) : KeepsThroughout S Γ e' := by
  intro n e'' hn
  exact h (n + 1) e'' (by simp [passes, he, hn])

/-- The passes together preserve type and meaning if every rule that fires keeps. -/
lemma simplify_preserves (ht : Typed Γ e t) (hk : KeepsThroughout S Γ e)
    (h : simplify e = some e') : Preserved S Γ e e' t := by
  refine simplify.partial_correctness
    (fun e e' => Typed Γ e t → KeepsThroughout S Γ e → Preserved S Γ e e' t) ?_ e e' h ht hk
  intro simplifyRest ih e e' h ht hk
  obtain ⟨⟨changed, j, e₁⟩, honce, h⟩ := bind_eq_some_iff.mp h
  have hpass := simplifyOnce_preserves S ht (hk 0 e rfl) honce
  dsimp only at h
  split at h
  · rename_i hchanged
    subst hchanged
    exact hpass.trans S (ih e₁ e' h hpass.1 (hk.next S honce))
  · cases h
    exact hpass

/-- `true` at every key of a type. -/
def trueAt (t : Ty) : Expr := .apply (.lit (.bool true) (.base .bool))
    (.builtin .const (.fn (.base .bool) (.fn t (.base .bool)))) (.fn t (.base .bool))

lemma trueAt_means (ρ : Env W) {t : Ty} (ht : t.resolved = true) :
    Means S ρ Γ (trueAt t) (.fn t (.base .bool)) (some fun _ => some true) := by
  refine ⟨.apply (.lit (.bool true)) (.builtin (.const _ _) (by simp [Ty.resolved, ht])), ?_⟩
  rw [trueAt, den_const_at S ρ (b := .base .bool) rfl]
  rfl

lemma trueAt_keeps {t : Ty} (hnode : finishNode (trueAt t) false false =
    some (false, false, trueAt t)) : KeepsOnce S Γ (trueAt t) :=
  .apply S (KeepsNode.of_unchanged S rfl) (KeepsNode.of_unchanged S rfl) rfl rfl hnode

/-- The truth values a predicate accepts. -/
abbrev accepted : Ty := .refined (.base .bool) 0

/-- `id ▷ (id ▷ restrict)`: the truth values at the keys the predicate `id` accepts. -/
def restrictedId : Expr := .apply (.builtin .id (.fn (.base .bool) (.base .bool)))
    (.apply (.builtin .id (.fn (.base .bool) (.base .bool)))
      (.builtin .restrict (.fn (.fn (.base .bool) (.base .bool))
        (.fn (.fn (.base .bool) (.base .bool)) (.fn accepted (.base .bool)))))
      (.fn (.fn (.base .bool) (.base .bool)) (.fn accepted (.base .bool))))
    (.fn accepted (.base .bool))

/-- `true` at the keys the predicate accepts. -/
def restrictedTrue : Expr :=
  .compose [restrictedId, trueAt (.base .bool)] (.fn accepted (.base .bool))

/-- The keys where a refinement accepts `true` alone, as `id` does. -/
def onlyTrue : Keys := ⟨fun _ => Empty, fun _ _ v => HEq v true⟩

lemma restrictedId_means (S : Scalars onlyTrue) (ρ : Env onlyTrue) :
    Means S ρ Γ restrictedId (.fn accepted (.base .bool)) (some fun k => some k.1) := by
  have hid : Typed Γ (.builtin .id (.fn (.base .bool) (.base .bool)))
      (.fn (.base .bool) (.base .bool)) := .builtin (.id _) rfl
  refine ⟨.apply hid (.apply hid (.builtin (.restrict _ _ _) rfl)), ?_⟩
  have hkey (k : accepted.Val onlyTrue) : k.1 = true := eq_of_heq k.2
  rw [restrictedId, den_apply_of S ρ hid.ty_eq,
    den_apply_builtin S ρ hid.ty_eq (Builtin.den_restrict S _ _ _), den, Builtin.den_id]
  refine congrArg some (funext fun k => if_pos ?_)
  rw [hkey k]

lemma restrictedTrue_keeps (S : Scalars onlyTrue) (ρ : Env onlyTrue) :
    Rule.constReduce.Keeps S ρ restrictedTrue := by
  rintro es a c w b m d he hw hleft hright
  cases he
  obtain rfl : ⟨[], restrictedId, trueAt (.base .bool), []⟩ = w := Option.some.inj hw
  cases hleft
  rintro - - - - - -
  exact ⟨_, (restrictedId_means (Γ := fun _ => none) S ρ).den, fun _ _ _ _ => rfl⟩

/-- A truth value or nothing, each under its tag. -/
def tagged : Ty := .variant [(.index 0, .base .bool), (.index 1, .base .unit)]

/-- `⟨id, variant_project(0)⟩ ≫ const(true)`: `true` at the keys that carry the tag `0`. -/
def filteredTrue : Expr := .compose [zipPair (.builtin .id (.fn tagged tagged))
      (.builtin (.variantProject (.index 0)) (.fn tagged (.base .bool))),
    trueAt (.tuple [tagged, .base .bool])] (.fn tagged (.base .bool))

end Cambra.Ccl
