import Cambra.Ir.UniquifyWalk

/-!
# The specification of uniquification

Every sort of tree is a walk (`asWalk`), and every walk meets its specification
(`Expr.asWalk_spec`). The induction follows the tree; a case names the walks its node is made of, in
the order in which the source runs them, and the rules of `Cambra.Ir.UniquifyWalk` do the rest.
-/

namespace Cambra.Ir

variable {ι : Type} {G : Ground} {held : ℕ → Expr ℕ} {uid₀ base bound : ℕ}

/-! ## The trees as walks -/

section AsWalk

variable (home : Option Home)

/-- The walk of a term. -/
def Expr.asWalk (top : Bool) (e : Expr ℕ) : Walk (Expr ℕ) where
  run names s := e.uniquify home names top s
  count := e.count
  meet env k V := e.meet env k V
  alike _ pairs out := e.Alpha pairs out ∧ out.Minted
  good V _ Γ env k := e.Good V Γ env k
  own := Expr.ownBinders
  quoted := Expr.quoted
  settled store out := out.Settled store

/-- The walk of a node's items. -/
def Items.asWalk (under top : Bool) (is : Items ℕ) : Walk (Items ℕ) where
  run names s := is.uniquify home names top s
  count := is.count
  meet env k V := is.meet env k V
  alike around pairs out := is.Alpha under around pairs out ∧ out.Minted
  good V around Γ env k := is.Good V under around Γ env k
  own := Items.ownBinders
  quoted := Items.quoted
  settled store out := out.Settled store

/-- The walk of a type. -/
def Ty.asWalk (t : Ty ℕ) : Walk (Ty ℕ) where
  run names s := t.uniquify home names s
  count := t.count
  meet env k V := t.meet env k V
  alike _ pairs out := t.Alpha pairs out ∧ out.Minted
  good V _ Γ env k := t.Good V Γ env k
  own _ := []
  quoted := Ty.quoted
  settled store out := out.Settled store

/-- The walk of a type's parts. -/
def Parts.asWalk (refined : Bool) (ps : Parts ℕ) : Walk (Parts ℕ) where
  run names s := ps.uniquify home names refined s
  count := ps.count refined
  meet env k V := ps.meet env refined k V
  alike _ pairs out := ps.Alpha pairs out ∧ out.Minted
  good V _ Γ env k := ps.Good V refined Γ env k
  own _ := []
  quoted := Parts.quoted
  settled store out := out.Settled store refined

/-- The walk of a list of types. -/
def Tys.asWalk (ts : Tys ℕ) : Walk (Tys ℕ) where
  run names s := ts.uniquify home names s
  count := ts.count
  meet env k V := ts.meet env k V
  alike _ pairs out := ts.Alpha pairs out ∧ out.Minted
  good V _ Γ env k := ts.Good V Γ env k
  own _ := []
  quoted := Tys.quoted
  settled store out := out.Settled store

/-- The walk of a predicate: the rebuild, if there is one, and otherwise a new one. -/
def Walk.predicate (a : ℕ) (e : Expr ℕ) : Walk Rc where
  run names s :=
    match s.memo.lookup a with
    | some done => (done, s)
    | none =>
      let e' := e.uniquify home names false s
      e'.2.install a e'.1
  count := e.count
  meet env k V := if (V.lookup a).isSome then V else (a, env, k) :: e.meet env k V
  alike _ pairs done := e.Alpha pairs done.2 ∧ done.2.Minted
  good V _ Γ _ _ := ∃ met, V.lookup a = some met ∧ e.Good V Γ met.1 met.2
  own _ := []
  quoted done := (done.1, done.2.ownBinders) :: done.2.quoted
  settled store done := store done.1 = done.2 ∧ done.2.Settled store

end AsWalk

/-- A reference. -/
def Walk.reference (n : Name) : Walk Name where
  run names s := (names.rewrite n, s)
  count := 0
  meet _ _ V := V
  alike _ pairs n' := Corresponds pairs n n'
  good _ _ Γ env _ := Γ.find n = env.find n
  own _ := []
  quoted _ := []
  settled _ _ := True

/-- A write target. -/
def Walk.target (target : Option Name) : Walk (Option Name) where
  run names s := (target.map names.rewrite, s)
  count := 0
  meet _ _ V := V
  alike _ pairs target' := TargetsCorrespond pairs target target'
  good _ _ Γ env _ := ∀ n ∈ target, Γ.find n = env.find n
  own _ := []
  quoted _ := []
  settled _ _ := True

/-- Types the walk does not reach. -/
def Walk.keepTys (ts : Tys ℕ) : Walk (Tys ℕ) where
  run _ s := (ts, s)
  count := 0
  meet _ _ V := V
  alike _ pairs out := ts.Alpha pairs out ∧ out.Minted
  good _ _ Γ _ _ := ts.Inert Γ
  own _ := []
  quoted := Tys.quoted
  settled _ _ := True

/-- A node's own slots, which the walk reaches at some nodes only. -/
def Walk.ownSlots (home : Option Home) (walked : Bool) (slots : Tys ℕ) : Walk (Tys ℕ) where
  run names s := if walked then slots.uniquify home names s else (slots, s)
  count := if walked then slots.count else 0
  meet env k V := if walked then slots.meet env k V else V
  alike _ pairs out := slots.Alpha pairs out ∧ out.Minted
  good V _ Γ env k := if walked then slots.Good V Γ env k else slots.Inert Γ
  own _ := []
  quoted := Tys.quoted
  settled store out := walked = true → out.Settled store

/-- Parts of a type the walk does not reach. -/
def Walk.keepParts (ps : Parts ℕ) : Walk Unit where
  run _ s := ((), s)
  count := 0
  meet _ _ V := V
  alike _ pairs _ := ps.Alpha pairs ps ∧ ps.Minted
  good _ _ Γ _ _ := ps.Inert Γ
  own _ := []
  quoted _ := ps.quoted
  settled _ _ := True

/-- A quoted term the walk does not reach. -/
def Walk.keepQuoted (a : ℕ) (e : Expr ℕ) : Walk Rc where
  run _ s := ((a, e), s)
  count := 0
  meet _ _ V := V
  alike _ pairs out := e.Alpha pairs out.2 ∧ out.2.Minted
  good _ _ Γ _ _ := e.Inert Γ
  own _ := []
  quoted out := (out.1, out.2.ownBinders) :: out.2.quoted
  settled _ _ := True

/-! ## What is not reached -/

/-- What a quotation of a lowered tree is: of an earlier allocation, whose binders are raw. -/
def OldQuotation (base : ℕ) (q : ℕ × List Name) : Prop := q.1 < base ∧ ∀ n ∈ q.2, n.isRaw = true

/-- A lowered tree declares raw binders, and quotes what was there before the walk. -/
lemma lowered_old : (∀ e : Expr ℕ, ∀ bound ≤ base, e.Lowered held uid₀ bound →
      (∀ n ∈ e.ownBinders, n.isRaw = true) ∧ ∀ q ∈ e.quoted, OldQuotation base q) ∧
    (∀ i : Items ℕ, ∀ bound ≤ base, i.Lowered held uid₀ bound →
      (∀ n ∈ i.ownBinders, n.isRaw = true) ∧ ∀ q ∈ i.quoted, OldQuotation base q) ∧
    (∀ t : Ty ℕ, ∀ bound ≤ base, t.Lowered held uid₀ bound → ∀ q ∈ t.quoted, OldQuotation base q) ∧
    (∀ p : Parts ℕ, ∀ bound ≤ base, p.Lowered held uid₀ bound →
      ∀ q ∈ p.quoted, OldQuotation base q) ∧
    ∀ ts : Tys ℕ, ∀ bound ≤ base, ts.Lowered held uid₀ bound →
      ∀ q ∈ ts.quoted, OldQuotation base q := by
  apply trees_induction
  case quote =>
    -- what is quoted was allocated before, so its own quotations are older still
    rintro b a e rest ihe ihrest bound hle ⟨ha, -, he, hrest⟩ q hq
    obtain ⟨hown, hquoted⟩ := ihe a (ha.le.trans hle) he
    rcases List.mem_cons.mp hq with rfl | hq
    · exact ⟨ha.trans_le hle, hown⟩
    · exact (List.mem_append.mp hq).elim (hquoted q) (ihrest bound hle hrest q)
  all_goals grind [Expr.Lowered, Items.Lowered, Ty.Lowered, Parts.Lowered, Tys.Lowered,
    Expr.ownBinders, Items.ownBinders, Expr.quoted, Items.quoted, Ty.quoted, Parts.quoted,
    Tys.quoted]

lemma Walk.reference_spec {n : Name} (hn : n.Old G.uid₀) : (Walk.reference n).Spec G bound :=
  .still (fun names => names.rewrite n) (fun _ _ => rfl) rfl (fun _ _ _ => rfl)
    (fun _ _ _ _ _ henv _ _ _ _ _ _ _ hμ hcons _ hΓ =>
      corresponds_rewrite_iff hcons hΓ (MintLog.InHand.mono_all hμ henv) hn)
    (fun _ => rfl) (fun _ _ h => absurd h List.not_mem_nil) fun _ _ => trivial

lemma Walk.target_spec {target : Option Name} (hn : ∀ n ∈ target, n.Old G.uid₀) :
    (Walk.target target).Spec G bound :=
  .still (fun names => target.map names.rewrite) (fun _ _ => rfl) rfl (fun _ _ _ => rfl)
    (fun _ _ _ _ _ henv _ _ _ _ _ _ _ hμ hcons _ hΓ =>
      targetsCorrespond_rewrite_iff hcons hΓ (MintLog.InHand.mono_all hμ henv) hn)
    (fun _ => rfl) (fun _ _ h => absurd h List.not_mem_nil) fun _ _ => trivial

lemma Walk.keepTys_spec {ts : Tys ℕ} (hle : bound ≤ G.base) (h : ts.Lowered G.held G.uid₀ bound) :
    (Walk.keepTys ts).Spec G bound :=
  .still (fun _ => ts) (fun _ _ => rfl) rfl (fun _ _ _ => rfl)
    (fun _ _ _ _ _ _ _ _ _ _ _ _ _ _ hcons _ hΓ => (inert_iff hcons).2.2.2.2 ts _ _ _ hΓ h)
    (fun _ => rfl) (fun _ => lowered_old.2.2.2.2 ts bound hle h) fun _ _ => trivial

variable {home : Option Home} {a : ℕ} {e : Expr ℕ}

lemma Walk.ownSlots_spec {slots : Tys ℕ} (walked : Bool) (hle : bound ≤ G.base)
    (h : slots.Lowered G.held G.uid₀ bound) (hwalk : (slots.asWalk home).Spec G bound) :
    (Walk.ownSlots home walked slots).Spec G bound := by
  cases walked with
  | true =>
    exact hwalk.map id (fun _ _ => rfl) rfl (fun _ _ _ => rfl) (fun _ _ _ => Iff.rfl)
      (fun _ _ _ _ _ => Iff.rfl) (fun _ => rfl) (fun _ => List.Subset.refl _) fun _ _ hs _ => hs
  | false =>
    exact (Walk.keepTys_spec hle h).map id (fun _ _ => rfl) rfl (fun _ _ _ => rfl)
      (fun _ _ _ => Iff.rfl) (fun _ _ _ _ _ => Iff.rfl) (fun _ => rfl)
      (fun _ => List.Subset.refl _) fun _ _ _ hwalked => Bool.noConfusion hwalked

lemma Walk.keepParts_spec {ps : Parts ℕ} (hle : bound ≤ G.base)
    (h : ps.Lowered G.held G.uid₀ bound) : (Walk.keepParts ps).Spec G bound :=
  .still (fun _ => ()) (fun _ _ => rfl) rfl (fun _ _ _ => rfl)
    (fun _ _ _ _ _ _ _ _ _ _ _ _ _ _ hcons _ hΓ => (inert_iff hcons).2.2.2.1 ps _ _ _ hΓ h)
    (fun _ => rfl) (fun _ => lowered_old.2.2.2.1 ps bound hle h) fun _ _ => trivial

lemma Walk.keepQuoted_spec (hle : bound ≤ G.base) (ha : a < bound) (h : e.Lowered G.held G.uid₀ a) :
    (Walk.keepQuoted a e).Spec G bound := by
  refine .still (fun _ => (a, e)) (fun _ _ => rfl) rfl (fun _ _ _ => rfl)
    (fun _ _ _ _ _ _ _ _ _ _ _ _ _ _ hcons _ hΓ => (inert_iff hcons).1 e _ _ _ hΓ h)
    (fun _ => rfl) (fun _ q hq => ?_) fun _ _ => trivial
  obtain ⟨hown, hquoted⟩ := lowered_old.1 e a (ha.le.trans hle) h
  rcases List.mem_cons.mp hq with rfl | hq
  · exact ⟨ha.trans_le hle, hown⟩
  · exact hquoted q hq

/-! ## At a predicate -/

/-- A predicate met for the first time is rebuilt and installed. -/
lemma Walk.Returns.install {env : BinderEnv} {k : ℕ} {V : Met} {g g' : Ghost} {s : Uniquifier}
    {out : Expr ℕ × Uniquifier} (he : e = G.held a) (ha : a < bound) (hmissing : V.lookup a = none)
    (r : (e.asWalk home false).Returns G a env k V g s g' out) :
    ∃ g'', Uniquifier.Step G bound V g s ((a, env, k) :: e.meet env k V) g''
        (k + e.count) (out.2.install a out.1).2 ∧
      Rebuilt G ((a, env, k) :: e.meet env k V) g'' (out.2.next + 1) a
        (out.2.next, out.1) := by
  have hunmet : (e.meet env k V).lookup a = none := (r.older a le_rfl).trans hmissing
  have hV : Met.Extends (e.meet env k V) ((a, env, k) :: e.meet env k V) := by
    intro b met hb
    have hne : b ≠ a := by
      rintro rfl
      exact absurd (hunmet.symm.trans hb) (by simp)
    rwa [lookup_cons_of_ne hne]
  set d := out.2.next with hd
  set store := Function.update g'.store d out.1 with hstoreDef
  have hself : store d = out.1 := Function.update_self ..
  have hother : ∀ d', d' ≠ d → store d' = g'.store d' := fun d' hne => Function.update_of_ne hne ..
  -- An allocation in use is the one just made or one made before it.
  have hcases : ∀ d', d' < d + 1 → d' = d ∨ d' < d := fun d' h => by omega
  have hstored : ∀ {lo : ℕ} {P : Expr ℕ → Prop}, P out.1 →
      (∀ d', lo ≤ d' → d' < d → P (g'.store d')) →
      ∀ d', lo ≤ d' → d' < d + 1 → P (store d') := by
    intro lo P hnew hold d' hlo hd'
    rcases hcases d' hd' with rfl | hlt
    · rwa [hself]
    · rw [hother d' hlt.ne]
      exact hold d' hlo hlt
  have hagrees : Agrees G.base d g'.store store := fun d' _ hlt => hother d' hlt.ne
  have hlt : d < d + 1 := Nat.lt_succ_self d
  have hrebuilt : Rebuilt G ((a, env, k) :: e.meet env k V)
      { g' with store := store } (d + 1) a (d, out.1) :=
    { made := ⟨r.sound.base_le, hlt⟩
      stored := hself
      settled := fun store' h => r.settled store' (hagrees.trans hlt.le h)
      quoted := fun q hq => (r.quoted q hq).mono hagrees hlt.le
      judged := ⟨env, k, List.lookup_cons_self, he ▸ r.judged.mono hV (List.Subset.refl _)⟩ }
  refine ⟨{ g' with store := store }, ⟨?_, r.met.trans hV, ?_, r.log, ?_, r.base_le, r.uid_le,
    r.next_le.trans hlt.le, ?_⟩, hrebuilt⟩
  · refine ⟨r.sound.consistent, r.sound.passed, r.sound.uid_le, r.sound.base_le.trans hlt.le,
      ?_, ?_, ?_, ?_, ?_⟩
    · intro b
      change List.lookup b ((a, (d, out.1)) :: out.2.memo) = none ↔ _
      by_cases hb : b = a
      · subst hb
        simp
      · rw [lookup_cons_of_ne hb, lookup_cons_of_ne hb]
        exact r.sound.missing b
    · intro b done hdone
      change List.lookup b ((a, (d, out.1)) :: out.2.memo) = some done at hdone
      by_cases hb : b = a
      · subst hb
        rw [List.lookup_cons_self, Option.some.injEq] at hdone
        exact hdone ▸ hrebuilt
      · rw [lookup_cons_of_ne hb] at hdone
        exact Rebuilt.mono (g := g') hV (List.Subset.refl _) hagrees hlt.le
          (r.sound.rebuilt b done hdone)
    · exact hstored (P := (·.ownBinders.Nodup)) r.nodup r.sound.nodup
    · exact hstored (P := fun e => ∀ n ∈ e.ownBinders, n.Old out.2.uid)
        (fun n hn => (r.own n hn).2) r.sound.minted
    · intro d₁ d₂ hbase₁ hd₁ hbase₂ hd₂ hne
      change (store d₁).ownBinders.Disjoint (store d₂).ownBinders
      rcases hcases d₁ hd₁ with rfl | hlt₁ <;> rcases hcases d₂ hd₂ with rfl | hlt₂
      · exact absurd rfl hne
      · rw [hself, hother d₂ hlt₂.ne]
        exact r.apart d₂ hbase₂ hlt₂
      · rw [hself, hother d₁ hlt₁.ne]
        exact List.disjoint_symm (r.apart d₁ hbase₁ hlt₁)
      · rw [hother d₁ hlt₁.ne, hother d₂ hlt₂.ne]
        exact r.sound.apart d₁ d₂ hbase₁ hlt₁ hbase₂ hlt₂ hne
  · intro b hb
    have hne : b ≠ a := fun h => absurd ha (not_lt.mpr (h ▸ hb))
    rw [lookup_cons_of_ne hne]
    exact r.older b (ha.le.trans hb)
  · exact fun d' hbase hlt' => (hother d' (hlt'.trans_le r.next_le).ne).trans
      (r.store d' hbase hlt')
  · exact hstored (P := fun e => ∀ n ∈ e.ownBinders, ¬n.Old s.uid) (fun n hn => (r.own n hn).1)
      r.newer

/-- **A predicate is rebuilt once.** -/
lemma Walk.predicate_spec (he : e = G.held a) (ha : a < bound)
    (h : (e.asWalk home false).Spec G a) :
    (Walk.predicate home a e).Spec G bound := by
  intro env names k s V g hs henv
  -- From a rebuild of the predicate the rest follows alike, whether it is new or not.
  have hreturns : ∀ (V' : Met) (g' : Ghost) (done : Rc) (s' : Uniquifier),
      (Walk.predicate home a e).meet env k V = V' →
      (Walk.predicate home a e).run names s = (done, s') →
      Uniquifier.Step G bound V g s V' g' (k + e.count) s' →
      Rebuilt G V' g' s'.next a done →
      ∃ g', (Walk.predicate home a e).Returns G bound env k V g s g'
        ((Walk.predicate home a e).run names s) := by
    intro V' g' done s' hmeet hrun hstep hdone
    rw [hrun]
    refine ⟨g', ⟨hmeet ▸ hstep, ?_, List.nodup_nil, fun _ h => absurd h List.not_mem_nil,
      fun _ _ _ => List.disjoint_nil_left _, ?_, ?_⟩⟩
    · rw [hmeet]
      obtain ⟨env', k', hlookup, hjudged⟩ := hdone.judged
      intro V'' μ' around aroundPairs Γ pairs hV hμ hcons haround hΓ
      rw [← he] at hjudged
      refine (hjudged hV hμ hcons haround hΓ).trans ⟨fun hgood => ⟨_, hV _ _ hlookup, hgood⟩, ?_⟩
      rintro ⟨met, hmet, hgood⟩
      rw [hV _ _ hlookup, Option.some.injEq] at hmet
      subst hmet
      exact hgood
    · intro q hq
      rcases List.mem_cons.mp hq with rfl | hq
      · exact .inl ⟨hdone.made, by rw [hdone.stored]⟩
      · exact hdone.quoted q hq
    · exact fun store' hagrees => ⟨(hagrees _ hdone.made.1 hdone.made.2).trans hdone.stored,
        hdone.settled store' hagrees⟩
  cases hlookup : s.memo.lookup a with
  | some done =>
    have hmet : V.lookup a ≠ none := fun h => by
      rw [(hs.missing a).mpr h] at hlookup
      exact Option.some_ne_none _ hlookup.symm
    refine hreturns V g done s ?_ ?_ (hs.later (Nat.le_add_right k e.count)).stay
      (hs.rebuilt a done hlookup)
    · exact if_pos (Option.isSome_iff_ne_none.mpr hmet)
    · simp [Walk.predicate, hlookup]
  | none =>
    have hmissing : V.lookup a = none := (hs.missing a).mp hlookup
    obtain ⟨g', r⟩ := h hs henv
    obtain ⟨g'', hstep, hdone⟩ := r.install he ha hmissing
    refine hreturns _ g'' _ _ ?_ ?_ hstep hdone
    · simp [Walk.predicate, hmissing]
    · simp only [Walk.predicate, hlookup]
      rfl

end Cambra.Ir
