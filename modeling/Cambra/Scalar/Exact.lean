import Cambra.Scalar.Emit

/-!
# Fusion and the unfused chain

The recogniser follows a chain element by element (`Parser.step_follows`), so the value it reaches
stands for the column the unfused chain computes; the program it returns for a prefix then computes
that column, and evaluation in blocks returns it (`fusePrefix_eval_iff`) unless the empty column the
result is appended to has another type, which is where a field of the result is made by
`int_to_uint`. -/

namespace Cambra

open List
open Option hiding map_map

variable {chain : List Expr} {extent : Extent}

namespace Parser

variable {rt : Runtime}

/-! ## One element -/

/-- A computed value is the last instruction's. -/
def Last (st : Parser) (v : Val) : Prop :=
  ∀ slot extent, v = .slot slot extent → slot + 1 = st.instrs.length

/-- The recogniser goes from `cur` to `next` as the unfused elements go from column to column. -/
structure Follows (rt : Runtime) (st st' : Parser) (cur next : Val)
    (act : ColumnValue → Option ColumnValue) (made : Made → Made) : Prop where
  grows : st.Grows st'
  last : st.Last cur → st'.Last next
  sound : ∀ {input n} (t : Trace rt input n) {x : Shown} {c : ColumnValue},
    t.instrs = st.instrs → st.Tidy → cur.Is t x → act x.column = some c →
    ∃ u : Trace rt input n, u.instrs = st'.instrs ∧ next.Is u ⟨c, made x.made⟩

lemma grows_count (st : Parser) (e : Expr) : st.Grows (st.count e) := ⟨prefix_refl _, id⟩

lemma Follows.refl (st : Parser) (cur : Val) : Follows rt st st cur cur some id where
  grows := .refl st
  last h := h
  sound t x c ht _ hx hc := by
    cases hc
    exact ⟨t, ht, hx⟩

variable {cur next : Val} {f : ColumnValue → Option ColumnValue} {m : Made → Made} {st st' : Parser}

/-- Counting an element changes nothing a value stands for. -/
lemma Follows.count {e : Expr} (h : Follows rt (st.count e) st' cur next f m) :
    Follows rt st st' cur next f m :=
  ⟨(st.grows_count e).trans h.grows, h.last, h.sound⟩

lemma Follows.trans {st'' : Parser} {a b c : Val} {g : ColumnValue → Option ColumnValue}
    {m' : Made → Made} (h : Follows rt st st' a b f m) (h' : Follows rt st' st'' b c g m') :
    Follows rt st st'' a c (fun column => (f column).bind g) (m' ∘ m) where
  grows := h.grows.trans h'.grows
  last hl := h'.last (h.last hl)
  sound t x d ht htidy hx hd := by
    obtain ⟨e, he, hd⟩ := bind_eq_some_iff.mp hd
    obtain ⟨u, hu, hb⟩ := h.sound t ht htidy hx he
    exact h'.sound u hu (h.grows.tidy htidy) hb hd

lemma Follows.congr {g : ColumnValue → Option ColumnValue} {m' : Made → Made}
    (h : Follows rt st st' cur next f m) (hf : ∀ c, g c = f c) (hm : ∀ x, m' x = m x) :
    Follows rt st st' cur next g m' := by rwa [funext hf, funext hm]

lemma follows_un {op : UnaryOpKind} {a : ℕ} (h : st.column cur = some ((a, extent), st')) :
    Follows rt st (st'.emit (.un op a)).2 cur (.slot st'.instrs.length op.outputExtent)
      (applyUnaryopColumn rt op) (fun _ => op.made) where
  grows := (column_spec rt h).grows.trans (st'.grows_emit _)
  last _ slot _ hslot := by
    obtain ⟨rfl, -⟩ := Val.slot.inj hslot
    simp [emit]
  sound t x c ht htidy hx hc := by
    obtain ⟨u, hu, hux⟩ := (column_spec rt h).sound t ht htidy hx
    rw [applyUnaryopColumn_eq rt hx.hasRows] at hc
    obtain ⟨w, hw, hslot⟩ := u.un hux hc
    rw [hu] at hw hslot
    exact ⟨w, hw, hslot _⟩

lemma Expr.made_binOp (op : BinOpKind) (m : Made) :
    (Expr.builtin (.binOp op)).made m = op.made (m.field (tupleField 0)) := by cases op <;> rfl

lemma Expr.made_const (argument : Expr) (m : Made) :
    (Expr.apply argument (.builtin .const)).made m = .plain := by cases argument <;> rfl

lemma keysAscend_pair {α : Type} (a b : α) : KeysAscend [(tupleField 0, a), (tupleField 1, b)] := by
  have hlt : tupleField 0 < tupleField 1 := by decide
  exact pairwise_pair.mpr hlt

lemma collect_pair {α : Type} (a b : α) :
    collect [(tupleField 0, a), (tupleField 1, b)] = [(tupleField 0, a), (tupleField 1, b)] :=
  collect_of_keysAscend (keysAscend_pair a b)

lemma lookup_pair {α : Type} (a b : α) :
    [(tupleField 0, a), (tupleField 1, b)].lookup (tupleField 0) = some a ∧
      [(tupleField 0, a), (tupleField 1, b)].lookup (tupleField 1) = some b := by
  have hne : (tupleField 1 == tupleField 0) = false := by decide
  exact ⟨by simp, by simp [lookup_cons, hne]⟩

lemma follows_bin {op : BinOpKind} {a b : Val} {slot : ℕ}
    (h : st.operation op a b = some ((slot, extent), st')) :
    Follows rt st st' (.tuple [a, b]) (.slot slot extent)
      ((Expr.builtin (.binOp op)).applyColumn rt) (Expr.builtin (.binOp op)).made := by
  have hop := operation_spec rt h
  refine ⟨hop.grows, fun _ s e hs => ?_, ?_⟩
  · obtain ⟨rfl, -⟩ := Val.slot.inj hs
    exact hop.last
  intro input n t x c ht htidy hx hc
  cases hx with
  | @tuple _ xs hkeys hx =>
    obtain ⟨xa, xb, rfl⟩ : ∃ xa xb, xs = [(tupleField 0, xa), (tupleField 1, xb)] := by
      match xs, hkeys with
      | [(_, xa), (_, xb)], hkeys =>
        obtain ⟨rfl, hrest⟩ := List.cons.inj hkeys
        obtain ⟨rfl, -⟩ := List.cons.inj hrest
        exact ⟨xa, xb, rfl⟩
    obtain ⟨hleft, hright⟩ := lookup_pair xa.column xb.column
    obtain ⟨hmade, -⟩ := lookup_pair xa.made xb.made
    simp only [Shown.product, map_cons, map_nil, collect_pair, Expr.applyColumn, hleft,
      hright, bind_eq_bind, bind_some] at hc
    obtain ⟨u, hu, hslot⟩ := hop.sound t ht htidy (hx 0 (_, a) (_, xa) rfl rfl)
      (hx 1 (_, b) (_, xb) rfl rfl) hc
    refine ⟨u, hu, ?_⟩
    rw [Expr.made_binOp]
    simp only [Shown.product, map_cons, map_nil, collect_pair, Made.field, hmade, getD_some]
    exact hslot extent

lemma follows_unaryOp {b : Builtin} {op : UnaryOpKind} (hop : b.unaryOp? = some op)
    (h : st.step (.builtin b) cur = some (next, st')) :
    Follows rt st st' cur next ((Expr.builtin b).applyColumn rt) (Expr.builtin b).made := by
  have hstep : st.step (.builtin b) cur = ((st.count (.builtin b)).column cur).bind fun r =>
      some (.slot r.2.instrs.length op.outputExtent, (r.2.emit (.un op r.1.1)).2) := by
    cases b <;> cases hop <;> rfl
  rw [hstep] at h
  obtain ⟨⟨⟨a, extent⟩, st₁⟩, hcolumn, h⟩ := bind_eq_some_iff.mp h
  cases h
  refine (follows_un hcolumn).count.congr (fun c => ?_) (fun x => ?_)
  · cases b <;> cases hop <;> rfl
  · cases b <;> cases hop <;> rfl

lemma follows_builtin {b : Builtin} (h : st.step (.builtin b) cur = some (next, st')) :
    Follows rt st st' cur next ((Expr.builtin b).applyColumn rt) (Expr.builtin b).made := by
  cases b with
  | id =>
    cases h
    exact (Follows.refl _ cur).count (e := .builtin .id)
  | binOp op =>
    match cur, h with
    | .tuple [a, b], h =>
      obtain ⟨⟨⟨slot, extent⟩, st₁⟩, hop, h⟩ := bind_eq_some_iff.mp h
      cases h
      exact (follows_bin hop).count
  | neg | notFn | intToUint => exact follows_unaryOp rfl h
  | const | zip | other => cases h

lemma follows_proj {key : ProjKey} (h : cur.project key = some next) :
    Follows rt st (st.count (.proj key)) cur next ((Expr.proj key).applyColumn rt)
      (Expr.proj key).made where
  grows := st.grows_count _
  last _ slot extent hslot := by
    subst hslot
    cases cur <;> simp [Val.project, bind_eq_some_iff] at h
  sound t x c ht htidy hx hc := by
    cases hx with
    | @read path extent d hfield hext =>
      simp only [Val.project, bind_eq_bind, bind_eq_some_iff, Option.some.injEq] at h
      obtain ⟨es, hes, e, he, rfl⟩ := h
      obtain ⟨hasc, fields, rfl, hfields⟩ := hext.exists_fields hes
      rw [Expr.applyColumn] at hc
      obtain ⟨⟨name, d⟩, hd, hname, hof⟩ :=
        exists_of_forall₂_mem_right hfields.flip (mem_of_lookup_eq_some he)
      obtain rfl : key.name = name := hname
      have hlookup : fields.lookup key.name = some d :=
        (lookup_eq_some_iff_mem (hasc.of_forall₂ hfields).nodup).mpr hd
      obtain rfl := mem_unique hc hlookup
      exact ⟨t, ht, .read (field_concat hfield hlookup) hof⟩
    | slot | const | tuple | record => cases h

lemma follows_const {argument : Expr} {value : Value} (hvalue : argument.toValue = some value)
    (h : Val.constant value = some next) :
    Follows rt st (st.count (.apply argument (.builtin .const))) cur next
      ((Expr.apply argument (.builtin .const)).applyColumn rt)
      (Expr.apply argument (.builtin .const)).made where
  grows := st.grows_count _
  last _ slot extent hslot := by
    subst hslot
    simp [Val.constant] at h
  sound t x c ht htidy hx hc := by
    simp only [Expr.applyColumn, hvalue, bind_eq_bind, bind_eq_some_iff, Option.some.injEq] at hc
    obtain ⟨_, rfl, rows, hrows, constant, hconstant, hc⟩ := hc
    obtain rfl := hx.hasRows.len_eq hrows
    obtain ⟨extent, hextent, rfl⟩ := map_eq_some_iff.mp h
    refine ⟨t, ht, ?_⟩
    rw [Expr.made_const]
    refine .const (Expr.toValue_ascends hvalue) hextent ?_
    rw [Value.column, hconstant]
    exact hc

/-! ## Whole elements -/

/-- What the arms of a product do: each is followed from the same value. -/
structure FollowsArms (rt : Runtime) (st st' : Parser) (cur : Val) (items : List (String × Val))
    (act : ColumnValue → Option (List (String × ColumnValue)))
    (made : Made → List (String × Made)) : Prop where
  grows : st.Grows st'
  sound : ∀ {input n} (t : Trace rt input n) {x : Shown} {cs : List (String × ColumnValue)},
    t.instrs = st.instrs → st.Tidy → cur.Is t x → act x.column = some cs →
    ∃ (u : Trace rt input n) (xs : List (String × Shown)), u.instrs = st'.instrs ∧
      List.Forall₂ (SameKey (Val.Is u)) items xs ∧ xs.map (fun f => (f.1, f.2.column)) = cs ∧
      xs.map (fun f => (f.1, f.2.made)) = made x.made

lemma followsArms_nil : FollowsArms rt st st cur [] (fun _ => some []) (fun _ => []) where
  grows := .refl st
  sound t _ _ ht _ _ hcs := by
    cases hcs
    exact ⟨t, [], ht, .nil, rfl, rfl⟩

lemma FollowsArms.cons {st'' : Parser} {item : Val} {items : List (String × Val)}
    {g : ColumnValue → Option (List (String × ColumnValue))} {m' : Made → List (String × Made)}
    (h' : FollowsArms rt st' st'' cur items g m') (h : Follows rt st st' cur item f m)
    (name : String) :
    FollowsArms rt st st'' cur ((name, item) :: items)
      (fun c => (f c).bind fun arm => (g c).bind fun arms => some ((name, arm) :: arms))
      (fun x => (name, m x) :: m' x) where
  grows := h.grows.trans h'.grows
  sound t x cs ht htidy hx hcs := by
    simp only [bind_eq_some_iff, Option.some.injEq] at hcs
    obtain ⟨arm, harm, arms, harms, rfl⟩ := hcs
    obtain ⟨u, hu, hitem⟩ := h.sound t ht htidy hx harm
    have htu := Trace.le_of_grows h.grows ht hu
    obtain ⟨w, xs, hw, hitems, rfl, hmade⟩ := h'.sound u hu (h.grows.tidy htidy) (hx.mono htu) harms
    refine ⟨w, (name, ⟨arm, m x.made⟩) :: xs, hw, .cons ⟨rfl, ?_⟩ hitems, rfl, ?_⟩
    · exact hitem.mono (Trace.le_of_grows h'.grows hu hw)
    · rw [map_cons, hmade]

variable {f : ColumnValue → Option (List (String × ColumnValue))} {m : Made → List (String × Made)}
  {r : (ℕ × Extent) × Parser} {v : Val}

lemma FollowsArms.product {items : List (String × Val)} (h : FollowsArms rt st st' cur items f m)
    (hslot : ∀ slot extent, next ≠ .slot slot extent)
    (his : ∀ {input n} {u : Trace rt input n} {xs : List (String × Shown)},
      items.map (·.1) = xs.map (·.1) →
      (∀ (i : ℕ) v x, items[i]? = some v → xs[i]? = some x → v.2.Is u x.2) →
      next.Is u (.product xs)) :
    Follows rt st st' cur next (fun c => (f c).map fun cs => .records (collect cs))
      (fun x => .product (collect (m x))) where
  grows := h.grows
  last _ slot extent heq := absurd heq (hslot slot extent)
  sound t x c ht htidy hx hc := by
    obtain ⟨cs, hcs, rfl⟩ := map_eq_some_iff.mp hc
    obtain ⟨u, xs, hu, hitems, rfl, hmade⟩ := h.sound t ht htidy hx hcs
    refine ⟨u, hu, hmade ▸ his (keys_eq_of_forall₂ (fun _ _ h => h.1) hitems) ?_⟩
    exact fun i v x hv hx => ((forall₂_iff_getElem?.mp hitems).2 i v x hv hx).2

lemma FollowsArms.congr {items : List (String × Val)}
    {g : ColumnValue → Option (List (String × ColumnValue))} {m' : Made → List (String × Made)}
    (h : FollowsArms rt st st' cur items f m) (hf : ∀ c, g c = f c) (hm : ∀ x, m' x = m x) :
    FollowsArms rt st st' cur items g m' := by rwa [funext hf, funext hm]

/-- The fields of a tuple from the `k`-th on. -/
def fieldsFrom {α : Type} (k : ℕ) (items : List α) : List (String × α) :=
  (items.zipIdx k).map fun (item, i) => (tupleField i, item)

mutual

/-- **The recogniser follows an element.** -/
theorem step_follows : ∀ {e : Expr} {st st' : Parser} {cur next : Val},
    st.step e cur = some (next, st') → Follows rt st st' cur next (e.applyColumn rt) e.made
  | .compose elts, st, st', cur, next, h => by
    rw [step] at h
    exact (steps_follow h).count.congr (fun _ => by rw [Expr.applyColumn])
      (fun _ => by rw [Expr.made])
  | .builtin b, st, st', cur, next, h => follows_builtin h
  | .proj key, st, st', cur, next, h => by
    rw [step] at h
    obtain ⟨v, hv, heq⟩ := map_eq_some_iff.mp h
    cases heq
    exact follows_proj hv
  | .apply argument function, st, st', cur, next, h => by
    cases function with
    | builtin b =>
      cases b with
      | const =>
        rw [step] at h
        simp only [bind_eq_bind, bind_eq_some_iff, Option.some.injEq, Prod.mk.injEq] at h
        obtain ⟨value, hvalue, v, hv, rfl, rfl⟩ := h
        exact follows_const hvalue hv
      | zip =>
        cases argument with
        | tuple arms =>
          rw [step] at h
          obtain ⟨⟨items, st₁⟩, hitems, h⟩ := bind_eq_some_iff.mp h
          cases h
          refine ((stepArms_follow 0 hitems).product (by simp) .tuple).count.congr (fun c => ?_)
            (fun x => ?_)
          · rw [Expr.applyColumn, Option.map_map, map_eq_bind]
            rfl
          · rw [Expr.made]
            rfl
        | record arms =>
          rw [step] at h
          obtain ⟨⟨items, st₁⟩, hitems, h⟩ := bind_eq_some_iff.mp h
          cases h
          refine ((stepFields_follow hitems).product (by simp) .record).count.congr (fun c => ?_)
            (fun x => ?_)
          · rw [Expr.applyColumn, map_eq_bind]
            rfl
          · rw [Expr.made]
        | _ => cases h
      | _ => cases h
    | _ => cases h
  | .tuple _, _, _, _, _, h | .record _, _, _, _, _, h | .lit _, _, _, _, _, h
  | .variantCtor _ _, _, _, _, _, h | .other, _, _, _, _, h => nomatch h

theorem steps_follow : ∀ {es : List Expr} {st st' : Parser} {cur next : Val},
    st.steps es cur = some (next, st') →
      Follows rt st st' cur next (Expr.applyChain rt es) (Expr.madeChain es)
  | [], st, st', cur, next, h => by
    cases h
    exact .refl st cur
  | e :: es, st, st', cur, next, h => by
    rw [steps] at h
    obtain ⟨⟨mid, st₁⟩, hmid, h⟩ := bind_eq_some_iff.mp h
    exact ((step_follows hmid).trans (steps_follow h)).congr (fun _ => by rw [Expr.applyChain]; rfl)
      (fun _ => by rw [Expr.madeChain]; rfl)

theorem stepArms_follow : ∀ {es : List Expr} (k : ℕ) {st st' : Parser} {cur : Val}
    {items : List Val}, st.stepArms es cur = some (items, st') →
      FollowsArms rt st st' cur (fieldsFrom k items)
        (fun c => (Expr.applyArms rt es c).map (fieldsFrom k))
        (fun x => fieldsFrom k (Expr.madeArms es x))
  | [], k, st, st', cur, items, h => by
    cases h
    exact followsArms_nil
  | e :: es, k, st, st', cur, items, h => by
    rw [stepArms] at h
    obtain ⟨⟨item, st₁⟩, hitem, h⟩ := bind_eq_some_iff.mp h
    obtain ⟨⟨rest, st₂⟩, hrest, h⟩ := bind_eq_some_iff.mp h
    cases h
    refine ((stepArms_follow (k + 1) hrest).cons (step_follows hitem) (tupleField k)).congr
      (fun c => ?_) (fun x => ?_)
    · rw [Expr.applyArms]
      cases e.applyColumn rt c with
      | none => rfl
      | some arm => cases Expr.applyArms rt es c <;> rfl
    · rw [Expr.madeArms]
      rfl

theorem stepFields_follow : ∀ {es : List (Label × Expr)} {st st' : Parser} {cur : Val}
    {items : List (String × Val)}, st.stepFields es cur = some (items, st') →
      FollowsArms rt st st' cur items (Expr.applyFields rt es) (Expr.madeFields es)
  | [], st, st', cur, items, h => by
    cases h
    exact followsArms_nil
  | (label, e) :: es, st, st', cur, items, h => by
    rw [stepFields] at h
    obtain ⟨⟨item, st₁⟩, hitem, h⟩ := bind_eq_some_iff.mp h
    obtain ⟨⟨rest, st₂⟩, hrest, h⟩ := bind_eq_some_iff.mp h
    cases h
    exact ((stepFields_follow hrest).cons (step_follows hitem) label.runtimeKey).congr
      (fun _ => by rw [Expr.applyFields]; rfl) (fun _ => by rw [Expr.madeFields])

end

/-! ## The scan -/

/-- What the final instruction of a value holds. -/
structure Roots (rt : Runtime) (st : Parser) (v : Val) (r : (ℕ × Extent) × Parser) : Prop where
  grows : st.Grows r.2
  last : st.Last v → r.1.1 + 1 = r.2.instrs.length
  sound : ∀ {input n} (t : Trace rt input n) {x : Shown}, t.instrs = st.instrs → st.Tidy →
    v.Is t x → ∃ u : Trace rt input n, u.instrs = r.2.instrs ∧ u.Prepares r.1.1 x ∧
      ∃ instr, u.instrs[r.1.1]? = some instr ∧
        (instr.isOperation = true ∨ ∃ fields, instr = .record fields)

lemma roots_output (h : st.output v = some r) (hv : v.fieldsOf.isSome) : Roots rt st v r := by
  have hout := output_spec rt h
  obtain ⟨instrs, fields, hinstrs, hslot⟩ := hout.record hv
  refine ⟨hout.grows, fun _ => by rw [hinstrs, hslot]; simp, fun t x ht htidy hx => ?_⟩
  obtain ⟨u, hu, hprep⟩ := hout.sound t ht htidy hx
  refine ⟨u, hu, hprep, .record fields, ?_, .inr ⟨fields, rfl⟩⟩
  rw [hu, hinstrs, hslot, getElem?_concat_length]

lemma rootOf_spec (rt : Runtime) (h : st.rootOf v = some r) : Roots rt st v r := by
  cases v with
  | slot slot extent =>
    cases h
    refine ⟨.refl st, fun hlast => hlast slot extent rfl, fun t x ht _ hx => ?_⟩
    refine ⟨t, ht, (t.holds_slot hx).prepares, ?_⟩
    cases hx with
    | slot hinstr hop => exact ⟨_, hinstr, .inl hop⟩
  | tuple | record => exact roots_output h rfl
  | read | const => cases h

lemma applyChain_append (es fs : List Expr) (c : ColumnValue) :
    Expr.applyChain rt (es ++ fs) c = (Expr.applyChain rt es c).bind (Expr.applyChain rt fs) := by
  induction es generalizing c with
  | nil => rfl
  | cons e es ih =>
    rw [cons_append, Expr.applyChain, Expr.applyChain, bind_eq_bind, bind_assoc]
    exact congrArg _ (funext ih)

lemma madeChain_append (es fs : List Expr) (m : Made) :
    Expr.madeChain (es ++ fs) m = Expr.madeChain fs (Expr.madeChain es m) := by
  induction es generalizing m with
  | nil => rfl
  | cons e es ih => exact ih (e.made m)

/-- The value reached after the elements `es` of a chain over columns of an extent. -/
structure Reaches (rt : Runtime) (extent : Extent) (es : List Expr) (instrs : List Instr)
    (v : Val) : Prop where
  last : ∀ slot e, v = .slot slot e → slot + 1 = instrs.length
  sound : ∀ {input n c}, ColumnValue.OfExtent n extent input →
    Expr.applyChain rt es input = some c →
    ∃ t : Trace rt input n, t.instrs = instrs ∧ v.Is t ⟨c, Expr.madeChain es .plain⟩

lemma Reaches.step {es : List Expr} {e : Expr} (h : Reaches rt extent es st.instrs cur)
    (htidy : st.Tidy) (hstep : st.step e cur = some (next, st')) :
    Reaches rt extent (es ++ [e]) st'.instrs next := by
  have hfollows : Follows rt .. := step_follows hstep
  refine ⟨hfollows.last h.last, fun hof hc => ?_⟩
  rw [applyChain_append] at hc
  obtain ⟨d, hd, hc⟩ := bind_eq_some_iff.mp hc
  obtain ⟨c', hc', hc⟩ := bind_eq_some_iff.mp hc
  cases hc
  obtain ⟨t, ht, hcur⟩ := h.sound hof hd
  obtain ⟨u, hu, hnext⟩ := hfollows.sound t ht htidy hcur hc'
  refine ⟨u, hu, ?_⟩
  rw [madeChain_append]
  exact hnext

/-- A candidate ends at a value reached, which can be a result. -/
structure Candidate.Good (rt : Runtime) (extent : Extent) (chain : List Expr) (instrs : List Instr)
    (b : Candidate) : Prop where
  le : b.len ≤ instrs.length
  reaches : Reaches rt extent (chain.take b.consumed) (instrs.take b.len) b.root

lemma Candidate.Good.mono {instrs instrs' : List Instr} {b : Candidate}
    (h : b.Good rt extent chain instrs) (hle : instrs <+: instrs') :
    b.Good rt extent chain instrs' := by
  obtain ⟨more, rfl⟩ := hle
  refine ⟨h.le.trans (by simp), ?_⟩
  rw [take_append_of_le_length h.le]
  exact h.reaches

/-- **The scan keeps a good candidate.** -/
lemma scan_good {extent : Extent} {chain : List Expr} :
    ∀ {es done : List Expr} {st : Parser} {cur : Val} {best : Option Candidate}
      {st' : Parser} {b : Candidate}, chain = done ++ es → st.Tidy →
      Reaches rt extent done st.instrs cur →
      (∀ b, best = some b → b.Good rt extent chain st.instrs) →
      scan st cur best done.length es = (st', some b) →
      st'.Tidy ∧ b.Good rt extent chain st'.instrs
  | [], done, st, cur, best, st', b, _, htidy, _, hbest, h => by
    cases h
    exact ⟨htidy, hbest b rfl⟩
  | e :: es, done, st, cur, best, st', b, hchain, htidy, hcur, hbest, h => by
    rw [scan] at h
    cases hstep : st.step e cur with
    | none =>
      rw [hstep] at h
      cases h
      exact ⟨htidy, hbest b rfl⟩
    | some r =>
      obtain ⟨next, st₁⟩ := r
      rw [hstep] at h
      have hnext := hcur.step htidy hstep
      have hfollows : Follows rt .. := step_follows hstep
      have hgrows := hfollows.grows
      have hbest₁ : ∀ b, best = some b → b.Good rt extent chain st₁.instrs := fun b hb =>
        (hbest b hb).mono hgrows.instrs
      have hchain' : chain = (done ++ [e]) ++ es := by rw [hchain]; simp
      have hlen : done.length + 1 = (done ++ [e]).length := by simp
      have hskip : scan st₁ next best (done.length + 1) es = (st', some b) →
          st'.Tidy ∧ b.Good rt extent chain st'.instrs := fun h => by
        rw [hlen] at h
        exact scan_good hchain' (hgrows.tidy htidy) hnext hbest₁ h
      dsimp only at h
      split_ifs at h with hops
      · cases hroot : st₁.rootOf next with
        | none =>
          rw [hroot] at h
          exact hskip h
        | some r =>
          rw [hroot] at h
          have hroots := (rootOf_spec rt hroot).grows
          have hprobed : (r.2.truncate st₁.instrs.length).instrs = st₁.instrs :=
            (prefix_iff_eq_take.mp hroots.instrs).symm
          have htidy' : (r.2.truncate st₁.instrs.length).Tidy :=
            tidy_truncate (hroots.tidy (hgrows.tidy htidy)) _
          rw [hlen] at h
          refine scan_good hchain' htidy' (by rwa [hprobed]) (fun b hb => ?_) h
          cases hb
          rw [hprobed]
          refine ⟨Nat.le_refl _, ?_⟩
          rw [take_length, hchain', take_left]
          exact hnext
      · exact hskip h

end Parser

/-! ## Fused programs -/

variable {rt : Runtime}

lemma fusePrefix_roots (rt : Runtime) {fused : Fused} (h : fusePrefix chain extent = some fused) :
    ∃ (b : Parser.Candidate) (st : Parser) (r : (ℕ × Extent) × Parser),
      fused.consumed = b.consumed ∧ fused.program.instrs = r.2.instrs ∧ st.Tidy ∧
      Parser.Reaches rt extent (chain.take b.consumed) st.instrs b.root ∧
      Parser.Roots rt st b.root r := by
  simp only [fusePrefix, bind_eq_bind, bind_eq_some_iff] at h
  obtain ⟨-, -, b, hb, r, hr, h⟩ := h
  cases h
  have htidy : (⟨[], [], 0⟩ : Parser).Tidy := fun _ _ hmem => absurd hmem (by simp)
  have hstart : Parser.Reaches rt extent [] [] (.read [] extent) := by
    refine ⟨fun _ _ hslot => absurd hslot (by simp), fun {input n c} hof hc => ?_⟩
    cases hc
    exact ⟨⟨[], [], [], ⟨rfl, hof.hasRows, by simp⟩, rfl⟩, rfl, .read rfl hof⟩
  have hscan : Parser.scan ⟨[], [], 0⟩ (.read [] extent) none ([] : List Expr).length chain =
      ((Parser.scan ⟨[], [], 0⟩ (.read [] extent) none 0 chain).1, some b) := Prod.ext rfl hb
  obtain ⟨hst, hgood⟩ := Parser.scan_good rfl htidy hstart (by simp) hscan
  exact ⟨b, _, r, rfl, rfl, Parser.tidy_truncate hst _, hgood.reaches, Parser.rootOf_spec rt hr⟩

/-- **What a fused program does on a column the unfused chain maps.**  It returns the unfused
chain's column if nothing in it is converted, and panics otherwise. -/
lemma fusePrefix_eval {fused : Fused} (h : fusePrefix chain extent = some fused) {n : ℕ}
    {column out : ColumnValue} (hof : column.OfExtent n extent)
    (hout : Expr.applyChain rt (chain.take fused.consumed) column = some out) :
    out.HasRows n ∧ fused.program.eval rt column =
      if (Expr.madeChain (chain.take fused.consumed) .plain).converts then none else some out := by
  obtain ⟨b, st, r, hconsumed, hinstrs, htidy, hreaches, hroots⟩ := fusePrefix_roots rt h
  rw [hconsumed] at hout ⊢
  obtain ⟨t, ht, hroot⟩ := hreaches.sound hof hout
  obtain ⟨u, hu, hprep, instr, hinstr, hresult⟩ := hroots.sound t ht htidy hroot
  obtain ⟨e, he, hempty⟩ := hprep.empty
  have hprogram : fused.program = ⟨u.instrs⟩ := by rw [hu, ← hinstrs]
  have hlast : u.instrs.length - 1 = r.1.1 := by
    have := hroots.last hreaches.last
    rw [hu]
    omega
  have hcols := u.computes.length_eq
  have hempties := u.prepared.length_eq
  rw [hprogram]
  refine ⟨u.computes.hasRows hprep.column, ?_⟩
  have hinstrLast : u.instrs.getLast? = some instr := by
    rw [getLast?_eq_getElem?, hlast, hinstr]
  have hcolLast : u.cols.getLast? = some out := by
    rw [getLast?_eq_getElem?, hcols, hlast, hprep.column]
  have heLast : u.empties.getLast? = some e := by
    rw [getLast?_eq_getElem?, hempties, hcols, hlast, he]
  split_ifs with hconverts
  · refine u.computes.eval_eq_none hof.len_eq hinstrLast hresult hcolLast u.empties_eq heLast ?_ ?_
    · obtain ⟨c, hc, hec⟩ := forall₂_getElem? u.prepared he
      obtain rfl := mem_unique hprep.column hc
      exact hec
    · intro heq
      exact absurd (hempty.mp heq) (by simp [hconverts])
  · refine u.computes.eval_eq_some hof.len_eq hinstrLast hresult hcolLast u.empties_eq ?_
    rw [heLast, hempty.mpr (by simpa using hconverts)]

/-- **A fused program and the unfused chain.**  On a column of the extent it was fused for, `eval`
returns the column the consumed elements return unfused, with a row for each of the input's, exactly
if no field of the result is made by `int_to_uint` or by arithmetic whose left operand is, or the
unfused elements panic on the column. -/
theorem fusePrefix_eval_iff (rt : Runtime) {chain : List Expr} {extent : Extent} {fused : Fused}
    (h : fusePrefix chain extent = some fused) {n : ℕ} {column : ColumnValue}
    (hof : column.OfExtent n extent) :
    (∀ out, Expr.applyChain rt (chain.take fused.consumed) column = some out →
        fused.program.eval rt column = some out ∧ out.HasRows n) ↔
      (Expr.madeChain (chain.take fused.consumed) .plain).converts = false ∨
        Expr.applyChain rt (chain.take fused.consumed) column = none := by
  cases hout : Expr.applyChain rt (chain.take fused.consumed) column with
  | none => exact iff_of_true (fun _ hnone => absurd hnone (by simp)) (.inr rfl)
  | some out =>
    obtain ⟨hrows, heval⟩ := fusePrefix_eval h hof hout
    cases hconverts : (Expr.madeChain (chain.take fused.consumed) .plain).converts with
    | false =>
      refine iff_of_true (fun out' hout' => ?_) (.inl rfl)
      cases hout'
      rw [heval, hconverts]
      exact ⟨rfl, hrows⟩
    | true =>
      refine iff_of_false (fun hall => ?_) (by simp)
      have hsome := (hall out rfl).1
      rw [heval, hconverts] at hsome
      cases hsome

/-- Pairs of `Int`s. -/
def intPair : Extent := .record [(tupleField 0, .base .int), (tupleField 1, .base .int)]

/-- `(x, y) ↦ -(x - y)`: a fan of the two projections, then two operations. -/
def negatedDifference : List Expr :=
  [.apply (.tuple [.proj (.index 0), .proj (.index 1)]) (.builtin .zip),
   .builtin (.binOp (.arithmetic .sub)), .builtin .neg]

lemma output_pair (ops : ℕ) : (Parser.mk [] [] ops).output
        (.tuple [.read [tupleField 0] (.base .int), .read [tupleField 1] (.base .int)]) =
      some ((2, intPair), ⟨[.input [tupleField 0], .input [tupleField 1],
        .record [(tupleField 0, 0), (tupleField 1, 1)]],
        [([tupleField 1], 1), ([tupleField 0], 0)], ops⟩) := by
  have hread : ∀ (st : Parser) (path : List String),
      st.output (.read path (.base .int)) = st.column (.read path (.base .int)) := by
    intro st path
    rw [Parser.output]
    rfl
  have hfields : (Val.tuple [.read [tupleField 0] (.base .int),
      .read [tupleField 1] (.base .int)]).fieldsOf =
      some [(tupleField 0, .read [tupleField 0] (.base .int)),
        (tupleField 1, .read [tupleField 1] (.base .int))] := rfl
  rw [Parser.output, hfields]
  simp only [List.foldlM, hread]
  rfl

lemma fusePrefix_negatedDifference : fusePrefix negatedDifference intPair =
    some ⟨⟨[.input [tupleField 0], .input [tupleField 1], .bin (.arithmetic .sub) 0 1,
      .un .neg 2]⟩, intPair, .base .int, 3⟩ := by
  have hfan : Parser.step ⟨[], [], 0⟩
      (.apply (.tuple [.proj (.index 0), .proj (.index 1)]) (.builtin .zip)) (.read [] intPair) =
      some (.tuple [.read [tupleField 0] (.base .int), .read [tupleField 1] (.base .int)],
        ⟨[], [], 4⟩) := rfl
  have hsub : Parser.step ⟨[], [], 4⟩ (.builtin (.binOp (.arithmetic .sub)))
      (.tuple [.read [tupleField 0] (.base .int), .read [tupleField 1] (.base .int)]) =
      some (.slot 2 (.base .int), ⟨[.input [tupleField 0], .input [tupleField 1],
        .bin (.arithmetic .sub) 0 1], [([tupleField 1], 1), ([tupleField 0], 0)], 5⟩) := by
    rw [Parser.step, Parser.operation]
    rfl
  simp only [fusePrefix, negatedDifference, Parser.scan, hfan, Parser.rootOf, output_pair]
  rw [show Parser.truncate _ _ = ⟨[], [], 4⟩ from rfl]
  simp only [hsub]
  rfl

lemma intPair_column (xs ys : List I64) (n : ℕ) (hx : xs.length = n) (hy : ys.length = n) :
    ColumnValue.OfExtent n intPair
      (.records [(tupleField 0, .base .int xs), (tupleField 1, .base .int ys)]) := by
  refine .record (by simp) ?_ rfl fun i e c he hc => ?_
  · exact Parser.keysAscend_pair _ _
  · rcases i with _ | _ | i
    · cases he
      cases hc
      exact .base rfl hx
    · cases he
      cases hc
      exact .base rfl hy
    · simp at he

/-- A fan of two projections and the operations after it, on two rows. -/
theorem fusePrefix_eval_iff_negatedDifference : fusePrefix negatedDifference intPair =
        some ⟨⟨[.input [tupleField 0], .input [tupleField 1], .bin (.arithmetic .sub) 0 1,
          .un .neg 2]⟩, intPair, .base .int, 3⟩ ∧
      (⟨[.input [tupleField 0], .input [tupleField 1], .bin (.arithmetic .sub) 0 1,
          .un .neg 2]⟩ : ScalarProgram).eval ⟨.debug, fun _ _ _ => none⟩
          (.records [(tupleField 0, .base .int [⟨3, by decide⟩, ⟨-4, by decide⟩]),
            (tupleField 1, .base .int [⟨5, by decide⟩, ⟨1, by decide⟩])]) =
        some (.base .int [⟨2, by decide⟩, ⟨5, by decide⟩]) := by
  have hunfused : Expr.applyChain ⟨.debug, fun _ _ _ => none⟩ negatedDifference
      (.records [(tupleField 0, .base .int [⟨3, by decide⟩, ⟨-4, by decide⟩]),
            (tupleField 1, .base .int [⟨5, by decide⟩, ⟨1, by decide⟩])]) =
        some (.base .int [⟨2, by decide⟩, ⟨5, by decide⟩]) := rfl
  refine ⟨fusePrefix_negatedDifference, ?_⟩
  exact ((fusePrefix_eval_iff ⟨.debug, fun _ _ _ => none⟩ fusePrefix_negatedDifference
    (intPair_column _ _ 2 rfl rfl)).mpr (.inl rfl) _ hunfused).1

/-- The elements `-` and `int_to_uint` over a column of `Int`s: unfused they return `UInt`s, fused
they panic, the prepared result column being one of `Int`s. -/
theorem fusePrefix_int_to_uint_panics :
    fusePrefix [.builtin .neg, .builtin .intToUint] (.base .int) =
        some ⟨⟨[.input [], .un .neg 0, .un .intToUint 1]⟩, .base .int, .base .uint, 2⟩ ∧
      Expr.applyChain ⟨.debug, fun _ _ _ => none⟩ [.builtin .neg, .builtin .intToUint]
          (.base .int [⟨-3, by decide⟩]) = some (.base .uint [⟨3, by decide⟩]) ∧
      (⟨[.input [], .un .neg 0, .un .intToUint 1]⟩ : ScalarProgram).eval
          ⟨.debug, fun _ _ _ => none⟩ (.base .int [⟨-3, by decide⟩]) = none := by
  have hfuse : fusePrefix [.builtin .neg, .builtin .intToUint] (.base .int) =
      some ⟨⟨[.input [], .un .neg 0, .un .intToUint 1]⟩, .base .int, .base .uint, 2⟩ := rfl
  have hunfused : Expr.applyChain ⟨.debug, fun _ _ _ => none⟩ [.builtin .neg, .builtin .intToUint]
      (.base .int [⟨-3, by decide⟩]) = some (.base .uint [⟨3, by decide⟩]) := rfl
  exact ⟨hfuse, hunfused, (fusePrefix_eval hfuse (n := 1) (.base rfl rfl) hunfused).2⟩

end Cambra
