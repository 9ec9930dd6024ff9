import Cambra.Scalar.Recognise

/-!
# What the recogniser emits

Specifications of the recogniser's operations over the columns its values stand for: reading a
scalar into a slot (`Parser.column_spec`), an operation (`Parser.operation_spec`) and building a
result (`Parser.output_spec`).  Each says two things: what the operation does to the state whatever
the input (`Parser.Grows`), and that where the unfused operation returns a column, the instructions
emitted compute it.
-/

namespace Cambra

open List
open Option hiding map_map

variable {st st' : Parser}

namespace Parser

/-! ## The state -/

/-- A cached read is an `input` instruction of its path. -/
def Tidy (st : Parser) : Prop :=
  ∀ path slot, (path, slot) ∈ st.reads → st.instrs[slot]? = some (.input path)

/-- What every operation of the recogniser does to its state: instructions are added at the end. -/
structure Grows (st st' : Parser) : Prop where
  instrs : st.instrs <+: st'.instrs
  tidy : st.Tidy → st'.Tidy

lemma Grows.refl (st : Parser) : st.Grows st := ⟨prefix_refl _, id⟩

lemma Grows.trans {st'' : Parser} (h : st.Grows st') (h' : st'.Grows st'') : st.Grows st'' :=
  ⟨h.instrs.trans h'.instrs, h'.tidy ∘ h.tidy⟩

lemma grows_emit (st : Parser) (instr : Instr) : st.Grows (st.emit instr).2 where
  instrs := prefix_append _ _
  tidy h path slot hmem := by
    have hslot := h path slot hmem
    exact (List.getElem?_append_left (List.getElem?_eq_some_iff.mp hslot).1).trans hslot

lemma grows_read (st : Parser) (path : List String) : st.Grows { (st.emit (.input path)).2 with
      reads := (path, st.instrs.length) :: st.reads } where
  instrs := prefix_append _ _
  tidy h p slot hmem := by
    rcases List.mem_cons.mp hmem with heq | hmem
    · cases heq
      exact getElem?_concat_length
    · exact (st.grows_emit (.input path)).tidy h p slot hmem

/-- Truncation to an earlier length gives the instructions of then. -/
lemma tidy_truncate (h : st.Tidy) (len : ℕ) : (st.truncate len).Tidy := by
  intro path slot hmem
  obtain ⟨hmem, hlt⟩ := mem_filter.mp hmem
  exact getElem?_take_eq_some.mpr ⟨of_decide_eq_true hlt, h path slot hmem⟩

end Parser

/-! ## Scalars -/

section

variable {rt : Runtime} {input : ColumnValue} {n : ℕ}

/-- The slot holds a column of a base type. -/
structure Trace.Holds (t : Trace rt input n) (slot : ℕ) (x : Shown) : Prop where
  column : t.cols[slot]? = some x.column
  base : x.column.view.isSome
  made : ∃ e, t.empties[slot]? = some e ∧ Marks e x.column x.made

variable {slot : ℕ} {t u : Trace rt input n} {x : Shown} {c : ColumnValue}
  {r : (ℕ × Extent) × Parser} {v : Val} {m : Made} {op join : BinOpKind} {name : String}
  {k : CompareKind} {joined : Option ℕ} {fields : List (String × Val × Val)}
  {xs : List (String × Shown)}

lemma Trace.Holds.mono (htu : t.Le u) (h : t.Holds slot x) : u.Holds slot x := by
  obtain ⟨e, he, hm⟩ := h.made
  exact ⟨htu.cols h.column, h.base, e, htu.empties he, hm⟩

lemma Trace.slot_eq (t : Trace rt input n) {instr : Instr} (h : t.instrs[slot]? = some instr) :
    ∃ c e, t.cols[slot]? = some c ∧ t.empties[slot]? = some e ∧
      instr.column rt input n (t.cols.take slot) = some c ∧
      ScalarProgram.emptyColumn input (t.empties.take slot) instr = some e := by
  obtain ⟨c, hc, hcol⟩ := t.computes.column_eq h
  obtain ⟨e, he, hempty⟩ := pushEach_getElem t.empties_eq h
  exact ⟨c, e, hc, he, hcol, hempty⟩

lemma ColumnValue.exists_base_of_view (c : ColumnValue) {v : ColumnView} (h : c.view = some v) :
    ∃ τ values, c = .base τ values := by
  cases c with
  | base τ values => exact ⟨τ, values, rfl⟩
  | units | records => cases h

lemma Trace.getElem?_pushed {instr : Instr} (hu : u.instrs = t.instrs ++ [instr]) :
    u.instrs[t.instrs.length]? = some instr := by
  rw [hu]
  exact getElem?_concat_length

/-- An `input` instruction holds the column its path reads. -/
lemma Trace.holds_input (t : Trace rt input n) {path : List String}
    (h : t.instrs[slot]? = some (.input path)) (hc : field input path = some c) :
    t.Holds slot ⟨c, .plain⟩ := by
  obtain ⟨d, e, hd, he, hcol, hempty⟩ := t.slot_eq h
  simp only [Instr.column, bind_eq_bind, bind_eq_some_iff, Option.some.injEq] at hcol
  obtain ⟨c', hc', v, hv, rfl⟩ := hcol
  obtain rfl := mem_unique hc hc'
  rw [ScalarProgram.emptyColumn, hc, map_some] at hempty
  cases hempty
  obtain ⟨τ, values, rfl⟩ := c.exists_base_of_view hv
  exact ⟨hd, rfl, _, he, .plain⟩

lemma Trace.holds_const (t : Trace rt input n) {τ : ScalarType} {v : τ.Val}
    (h : t.instrs[slot]? = some (.const (.scalar τ v))) :
    t.Holds slot ⟨.base τ (List.replicate n v), .plain⟩ := by
  obtain ⟨d, e, hd, he, hcol, hempty⟩ := t.slot_eq h
  cases hcol
  cases hempty
  exact ⟨hd, rfl, _, he, .plain⟩

lemma Trace.holds_slot (t : Trace rt input n) {extent : Extent}
    (h : (Val.slot slot extent).Is t x) : t.Holds slot x := by
  cases h with
  | slot hinstr hop hc he hm =>
    refine ⟨hc, t.computes.isSome_view hinstr hc ?_, _, he, hm⟩
    rintro ⟨fields, rfl⟩
    cases hop

/-- What reading a value into a slot does: it leaves the value's column there. -/
structure Parser.Reads (rt : Runtime) (st : Parser) (v : Val) (r : (ℕ × Extent) × Parser) :
    Prop where
  grows : st.Grows r.2
  sound : ∀ {input n} (t : Trace rt input n) {x : Shown}, t.instrs = st.instrs → st.Tidy →
    v.Is t x → ∃ u : Trace rt input n, u.instrs = r.2.instrs ∧ u.Holds r.1.1 x

lemma Parser.column_spec (rt : Runtime) (h : st.column v = some r) : Reads rt st v r := by
  cases v with
  | slot s e =>
    cases h
    exact ⟨.refl st, fun t x ht _ hx => ⟨t, ht, t.holds_slot hx⟩⟩
  | read path e =>
    rw [column] at h
    split_ifs at h with hview
    split at h
    · rename_i hs
      cases h
      refine ⟨.refl st, fun t x ht htidy hx => ⟨t, ht, ?_⟩⟩
      cases hx with
      | read hfield hext =>
        refine t.holds_input ?_ hfield
        rw [ht]
        exact htidy path _ (mem_of_lookup_eq_some hs)
    · cases h
      refine ⟨st.grows_read path, fun {input n} t x ht htidy hx => ?_⟩
      cases hx with
      | @read _ _ c hfield hext =>
        obtain ⟨w, hw⟩ := isSome_iff_exists.mp (hext.isSome_view hview)
        have hcol : (Instr.input path).column rt input n t.cols = some c := by
          simp [Instr.column, hfield, hw]
        obtain ⟨u, -, hu, -⟩ := t.push hcol (fun _ hf => by cases hf)
        exact ⟨u, by rw [hu, ht], u.holds_input (ht ▸ Trace.getElem?_pushed hu) hfield⟩
  | const value e =>
    rw [column] at h
    split_ifs at h with hview
    cases h
    refine ⟨st.grows_emit _, fun {input n} t x ht htidy hx => ?_⟩
    cases hx with
    | const _ hext hc =>
      obtain ⟨τ, v, rfl⟩ := exists_scalar_of_hasView hext hview
      have hcol : (Instr.const (.scalar τ v)).column rt input n t.cols = some _ := rfl
      obtain ⟨u, -, hu, -⟩ := t.push hcol (fun _ hf => by cases hf)
      rw [Value.column_scalar] at hc
      cases hc
      exact ⟨u, by rw [hu, ht], u.holds_const (ht ▸ Trace.getElem?_pushed hu)⟩
  | tuple | record => cases h

/-- What a binary operation makes of its left operand. -/
def BinOpKind.made (op : BinOpKind) (left : Made) : Made :=
  match op with
  | .arithmetic _ => left
  | _ => .plain

lemma Marks.bin {e l r : ColumnValue} (hm : Marks e l m) (hc : binColumn rt op l r = some c) :
    ∃ v, e.view = some v ∧ Marks (binopResultColumn op v) c (op.made m) := by
  obtain ⟨τ, ρ, f, xs, ys, results, hf, rfl, rfl, rfl, -⟩ := binColumn_inv rt hc
  cases hm with
  | plain =>
    refine ⟨⟨τ, .slice []⟩, rfl, ?_⟩
    rw [BinOpKind.kernel_result hf]
    have hplain : op.made .plain = .plain := by cases op <;> rfl
    rw [hplain]
    exact .plain
  | converted =>
    refine ⟨⟨.int, .slice []⟩, rfl, ?_⟩
    cases op with
    | arithmetic op =>
      cases hf
      exact .converted
    | compare op =>
      cases hf
      exact .plain
    | boolLogic | concat => cases hf

/-- What a unary operation makes of its operand. -/
def UnaryOpKind.made : UnaryOpKind → Made
  | .intToUint => .converted
  | _ => .plain

lemma Marks.un {op : UnaryOpKind} {e l : ColumnValue} (hm : Marks e l m)
    (hc : unColumn rt op l = some c) : Marks e c op.made := by
  obtain ⟨τ, ρ, f, xs, results, hf, rfl, rfl, -⟩ := unColumn_inv rt hc
  cases hm with
  | plain =>
    cases op <;> cases τ <;> cases hf
    · exact .plain
    · exact .plain
    · exact .converted
  | converted => cases op <;> cases hf

lemma Trace.bin (t : Trace rt input n) {a b : ℕ} {y : Shown} (ha : t.Holds a x) (hb : t.Holds b y)
    (hc : binColumn rt op x.column y.column = some c) :
    ∃ u : Trace rt input n, u.instrs = t.instrs ++ [.bin op a b] ∧
      ∀ extent, (Val.slot t.instrs.length extent).Is u ⟨c, op.made x.made⟩ := by
  have hinstr : (Instr.bin op a b).column rt input n t.cols = some c := by
    simp [Instr.column, ha.column, hb.column, hc]
  obtain ⟨u, e, hu, hcol, he, hempty, -⟩ := t.push hinstr (fun _ hf => by cases hf)
  obtain ⟨ea, hea, hma⟩ := ha.made
  obtain ⟨v, hv, hm⟩ := hma.bin hc
  simp only [ScalarProgram.emptyColumn, hea, hv, bind_eq_bind, bind_some,
    Option.some.injEq] at hempty
  subst hempty
  exact ⟨u, hu, fun extent => .slot (Trace.getElem?_pushed hu) rfl hcol he hm⟩

lemma Trace.un (t : Trace rt input n) {op : UnaryOpKind} {a : ℕ} (ha : t.Holds a x)
    (hc : unColumn rt op x.column = some c) :
    ∃ u : Trace rt input n, u.instrs = t.instrs ++ [.un op a] ∧
      ∀ extent, (Val.slot t.instrs.length extent).Is u ⟨c, op.made⟩ := by
  have hinstr : (Instr.un op a).column rt input n t.cols = some c := by
    simp [Instr.column, ha.column, hc]
  obtain ⟨u, e, hu, hcol, he, hempty, -⟩ := t.push hinstr (fun _ hf => by cases hf)
  obtain ⟨ea, hea, hma⟩ := ha.made
  obtain rfl := mem_unique hea hempty
  exact ⟨u, hu, fun extent => .slot (Trace.getElem?_pushed hu) rfl hcol he (hma.un hc)⟩

/-- What an operation of two values does: it emits an instruction last that computes what the
unfused operation does. -/
structure Parser.Operates (rt : Runtime) (op : BinOpKind) (st : Parser) (a b : Val)
    (r : (ℕ × Extent) × Parser) : Prop where
  grows : st.Grows r.2
  last : r.1.1 + 1 = r.2.instrs.length
  sound : ∀ {input n} (t : Trace rt input n) {x y : Shown} {c : ColumnValue},
    t.instrs = st.instrs → st.Tidy → a.Is t x → b.Is t y →
    applyBinopColumn rt op x.column y.column = some c →
    ∃ u : Trace rt input n, u.instrs = r.2.instrs ∧ ∀ extent,
      (Val.slot r.1.1 extent).Is u ⟨c, op.made x.made⟩

lemma Trace.le_of_grows (h : st.Grows st') (ht : t.instrs = st.instrs)
    (hu : u.instrs = st'.instrs) : t.Le u := by
  rw [Trace.Le, ht, hu]
  exact h.instrs

lemma Parser.scalarOperation_spec {a b : Val} (h : st.scalarOperation op a b = some r) :
    Operates rt op st a b r := by
  simp only [scalarOperation, bind_eq_bind, bind_eq_some_iff, Prod.exists] at h
  obtain ⟨sa, ea, st₁, ha, sb, eb, st₂, hb, hr⟩ := h
  cases hr
  obtain ⟨hga, ha⟩ := column_spec rt ha
  obtain ⟨hgb, hb⟩ := column_spec rt hb
  refine ⟨(hga.trans hgb).trans (st₂.grows_emit _), by simp [emit], ?_⟩
  intro input n t x y c ht htidy hx hy hc
  obtain ⟨u, hu, hux⟩ := ha t ht htidy hx
  have hle := Trace.le_of_grows hga ht hu
  obtain ⟨w, hw, hwy⟩ := hb u hu (hga.tidy htidy) (hy.mono hle)
  obtain ⟨l, hl⟩ := isSome_iff_exists.mp hux.base
  obtain ⟨r, hr⟩ := isSome_iff_exists.mp hwy.base
  rw [applyBinopColumn_eq rt hl hr hx.hasRows hy.hasRows] at hc
  obtain ⟨z, hz, hzslot⟩ := w.bin (hux.mono (Trace.le_of_grows hgb hu hw)) hwy hc
  rw [hw] at hz hzslot
  exact ⟨z, hz, hzslot⟩

/-! ## Comparisons of products -/

/-- The answers a column of `Bool`s holds. -/
def ColumnValue.answers : ColumnValue → Option (List Bool)
  | .base .bool values => some values
  | _ => none

lemma applyBinopColumn_compare (k : CompareKind) (l r : ColumnValue) :
    applyBinopColumn rt (.compare k) l r = applyBinopInto rt (.compare k) l r (.base .bool []) := by
  cases l <;> rfl

section

variable {α β : Type} {l : α} {left : List (String × α)} {right : List (String × β)} {r : β}

lemma comparedFields_none (h : right.lookup name = none) :
    comparedFields ((name, l) :: left) right = comparedFields left right := by
  simp [comparedFields, h]

lemma comparedFields_some (h : right.lookup name = some r) :
    comparedFields ((name, l) :: left) right = (name, l, r) :: comparedFields left right := by
  simp [comparedFields, h]

end

/-- The comparison of two record columns goes over the fields both have. -/
lemma compareFields_eq (k : CompareKind) (left right : List (String × ColumnValue))
    (acc : List Bool) :
    compareFields rt k left right acc = (comparedFields left right).foldlM (fun acc f =>
      (applyBinopColumn rt (.compare k) f.2.1 f.2.2).bind fun c =>
        c.answers.map (joinAnswers k acc)) acc := by
  induction left generalizing acc with
  | nil => rfl
  | cons f left ih =>
    obtain ⟨name, l⟩ := f
    rw [compareFields]
    cases hr : right.lookup name with
    | none =>
      rw [comparedFields_none hr]
      exact ih acc
    | some r =>
      rw [comparedFields_some hr, foldlM_cons, applyBinopColumn_compare]
      dsimp only
      cases applyBinopInto rt (.compare k) l r (.base .bool []) with
      | none => rfl
      | some c =>
        match c with
        | .base .bool values => exact ih (joinAnswers k acc values)
        | .base .int _ | .base .uint _ | .base .string _ | .units _ | .records _ => rfl

/-- What a fold over no answers starts from. -/
def CompareKind.start (k : CompareKind) : Bool :=
  match k with
  | .equals => true
  | _ => false

lemma applyBinopColumn_records (hjoin : Parser.joinOf (.compare k) = some join)
    (l r : List (String × ColumnValue)) :
    applyBinopColumn rt (.compare k) (.records l) (.records r) = (comparedRows l r).bind fun rows =>
        (compareFields rt k l r (List.replicate rows k.start)).map (.base .bool) := by
  rw [applyBinopColumn_compare]
  cases k <;> cases hjoin
  all_goals
    rw [applyBinopInto]
    simp only [nil_append, bind_eq_bind]
    refine congrArg (Option.bind _) (funext fun rows => ?_)
    rw [map_eq_bind]
    rfl

lemma forall₂_comparedFields {α β α' β' : Type} {R : α → α' → Prop} {S : β → β' → Prop}
    {left : List (String × α)} {left' : List (String × α')} {right : List (String × β)}
    {right' : List (String × β')} (hl : List.Forall₂ (SameKey R) left left')
    (hr : List.Forall₂ (SameKey S) right right') :
    List.Forall₂ (fun f f' => R f.2.1 f'.2.1 ∧ S f.2.2 f'.2.2) (comparedFields left right)
      (comparedFields left' right') := by
  have hlookup : ∀ name, (right.lookup name = none ∧ right'.lookup name = none) ∨
      ∃ r r', right.lookup name = some r ∧ right'.lookup name = some r' ∧ S r r' := by
    intro name
    induction hr with
    | nil => exact .inl ⟨rfl, rfl⟩
    | @cons f g _ _ hfg _ ih =>
      obtain ⟨k, r⟩ := f
      obtain ⟨k', r'⟩ := g
      obtain ⟨rfl, hS⟩ := hfg
      rw [lookup_cons, lookup_cons]
      cases name == k with
      | true => exact .inr ⟨r, r', rfl, rfl, hS⟩
      | false => exact ih
  induction hl with
  | nil => exact .nil
  | @cons f g _ _ hfg _ ih =>
    obtain ⟨name, l⟩ := f
    obtain ⟨name', l'⟩ := g
    obtain ⟨rfl, hR⟩ := hfg
    rcases hlookup name with ⟨h, h'⟩ | ⟨r, r', h, h', hS⟩
    · rw [comparedFields_none h, comparedFields_none h']
      exact ih
    · rw [comparedFields_some h, comparedFields_some h']
      exact .cons ⟨hR, hS⟩ ih

lemma joinAnswers_start {answers : List Bool} {n : ℕ} (h : answers.length = n) :
    joinAnswers k (List.replicate n k.start) answers = answers := by
  subst h
  induction answers with
  | nil => cases k <;> rfl
  | cons a answers ih =>
    cases k <;> simpa [joinAnswers, CompareKind.start, replicate_succ] using ih

lemma binColumn_join (hjoin : Parser.joinOf (.compare k) = some join) (acc answers : List Bool) :
    binColumn rt join (.base .bool acc) (.base .bool answers) =
      some (.base .bool (joinAnswers k acc answers)) := by
  have hmap : ∀ f : Bool → Bool → Bool,
      (acc.zip answers).mapM (fun x => some (f x.1 x.2)) = some (acc.zipWith f answers) := by
    intro f
    rw [mapM_eq_some_iff_forall₂, ← map_uncurry_zip_eq_zipWith, forall₂_map_right_iff]
    exact forall₂_same.mpr fun _ _ => rfl
  cases k <;> cases hjoin
  all_goals
    simp only [binColumn, BinOpKind.kernel, dite_true, bind_eq_bind, bind_some, hmap]
    rfl

/-- The fields' comparisons, joined so far. -/
def Joined (k : CompareKind) (joined : Option ℕ) (t : Trace rt input n) (acc : List Bool) : Prop :=
  match joined with
  | none => acc = List.replicate n k.start
  | some slot => ∀ extent, (Val.slot slot extent).Is t ⟨.base .bool acc, .plain⟩

/-- What joining the comparisons of fields does. -/
structure Parser.Joins (rt : Runtime) (k : CompareKind) (fields : List (String × Val × Val))
    (s s' : Option ℕ × Parser) : Prop where
  grows : s.2.Grows s'.2
  last : (∀ slot, s.1 = some slot → slot + 1 = s.2.instrs.length) →
    ∀ slot, s'.1 = some slot → slot + 1 = s'.2.instrs.length
  sound : ∀ {input n} (t : Trace rt input n) {xs : List (String × ColumnValue × ColumnValue)}
    {acc out : List Bool}, t.instrs = s.2.instrs → s.2.Tidy → Joined k s.1 t acc →
    List.Forall₂ (fun f x => (∃ m, f.2.1.Is t ⟨x.2.1, m⟩) ∧ ∃ m, f.2.2.Is t ⟨x.2.2, m⟩) fields xs →
    xs.foldlM (fun acc f => (applyBinopColumn rt (.compare k) f.2.1 f.2.2).bind fun c =>
      c.answers.map (joinAnswers k acc)) acc = some out →
    ∃ u : Trace rt input n, u.instrs = s'.2.instrs ∧ Joined k s'.1 u out

lemma Parser.joins_nil (s : Option ℕ × Parser) : Joins rt k [] s s where
  grows := .refl s.2
  last h := h
  sound t xs acc out ht _ hacc hxs hout := by
    cases hxs
    cases hout
    exact ⟨t, ht, hacc⟩

lemma ColumnValue.eq_of_answers {answers : List Bool} (h : c.answers = some answers) :
    c = .base .bool answers := by
  match c, h with
  | .base .bool values, h => exact congrArg _ (Option.some.inj h)

/-- The state after one field's comparison: the first answers stand by themselves, later ones are
joined with those before. -/
def Parser.joinNext (join : BinOpKind) (joined : Option ℕ) (r : (ℕ × Extent) × Parser) :
    Option ℕ × Parser :=
  match joined with
  | none => (some r.1.1, r.2)
  | some prev => (some r.2.instrs.length, (r.2.emit (.bin join prev r.1.1)).2)

lemma Parser.grows_joinNext (join : BinOpKind) (joined : Option ℕ) (r : (ℕ × Extent) × Parser) :
    r.2.Grows (joinNext join joined r).2 := by
  cases joined with
  | none => exact .refl _
  | some prev => exact r.2.grows_emit _

lemma Parser.last_joinNext (h : r.1.1 + 1 = r.2.instrs.length)
    (hslot : (joinNext join joined r).1 = some slot) :
    slot + 1 = (joinNext join joined r).2.instrs.length := by
  cases joined with
  | none =>
    cases hslot
    exact h
  | some prev =>
    cases hslot
    simp [joinNext, emit]

lemma Joined.mono {acc : List Bool} (h : Joined k joined t acc) (htu : t.Le u) :
    Joined k joined u acc := by
  cases joined with
  | none => exact h
  | some slot => exact fun extent => (h extent).mono htu

/-- One field's answers are joined with those before. -/
lemma Joined.next (hjoin : Parser.joinOf (.compare k) = some join) {acc answers : List Bool}
    (hacc : Joined k joined t acc) (ht : t.instrs = r.2.instrs)
    (hslot : ∀ extent, (Val.slot r.1.1 extent).Is t ⟨.base .bool answers, .plain⟩) :
    ∃ u : Trace rt input n, u.instrs = (Parser.joinNext join joined r).2.instrs ∧
      Joined k (Parser.joinNext join joined r).1 u (joinAnswers k acc answers) := by
  cases joined with
  | none =>
    refine ⟨t, ht, fun extent => ?_⟩
    have hlen : answers.length = n := by
      cases (hslot extent).hasRows with
      | base hlen => exact hlen
    obtain rfl : acc = List.replicate n k.start := hacc
    rw [joinAnswers_start hlen]
    exact hslot extent
  | some prev =>
    obtain ⟨u, hu, huslot⟩ := t.bin (t.holds_slot (hacc (.base .bool)))
      (t.holds_slot (hslot (.base .bool))) (binColumn_join hjoin acc answers)
    have hmade : join.made .plain = .plain := by cases join <;> rfl
    simp only [hmade, ht] at huslot
    exact ⟨u, by rw [hu, ht]; rfl, huslot⟩

/-- One field's comparison, joined with those before it. -/
lemma Parser.joins_cons (hjoin : joinOf (.compare k) = some join) {f : String × Val × Val}
    (hop : Operates rt (.compare k) st f.2.1 f.2.2 r) {s' : Option ℕ × Parser}
    (hrest : Joins rt k fields (joinNext join joined r) s') :
    Joins rt k (f :: fields) (joined, st) s' where
  grows := (hop.grows.trans (grows_joinNext join joined r)).trans hrest.grows
  last _ := hrest.last fun _ => last_joinNext hop.last
  sound t xs acc out ht htidy hacc hxs hout := by
    cases hxs with
    | cons hx hxs =>
      obtain ⟨⟨m, hl⟩, m', hr⟩ := hx
      rw [foldlM_cons] at hout
      obtain ⟨acc', hacc', hout⟩ := bind_eq_some_iff.mp hout
      obtain ⟨c, hc, ha⟩ := bind_eq_some_iff.mp hacc'
      obtain ⟨answers, hanswers, rfl⟩ := map_eq_some_iff.mp ha
      obtain ⟨u, hu, hslot⟩ := hop.sound t ht htidy hl hr hc
      obtain rfl : c = .base .bool answers := ColumnValue.eq_of_answers hanswers
      have htu := Trace.le_of_grows hop.grows ht hu
      obtain ⟨w, hw, hjoined⟩ := (hacc.mono htu).next hjoin hu hslot
      have hgrows := hop.grows.trans (grows_joinNext join joined r)
      have htw := Trace.le_of_grows hgrows ht hw
      refine hrest.sound w hw (hgrows.tidy htidy) hjoined (hxs.imp fun f x hfx => ?_) hout
      obtain ⟨⟨m, hl⟩, m', hr⟩ := hfx
      exact ⟨⟨m, hl.mono htw⟩, m', hr.mono htw⟩

lemma Parser.joins_foldlM (hjoin : joinOf (.compare k) = some join)
    {operation : Parser → Val → Val → Option ((ℕ × Extent) × Parser)}
    (hop : ∀ st a b r, operation st a b = some r → Operates rt (.compare k) st a b r)
    {s s' : Option ℕ × Parser} (h : fields.foldlM (fun (s : Option ℕ × Parser) f => do
      let r ← operation s.2 f.2.1 f.2.2
      some (joinNext join s.1 r)) s = some s') : Joins rt k fields s s' := by
  induction fields generalizing s with
  | nil =>
    obtain rfl := Option.some.inj h
    exact joins_nil s
  | cons f fields ih =>
    rw [foldlM_cons] at h
    obtain ⟨s₁, hs₁, h⟩ := bind_eq_some_iff.mp h
    obtain ⟨r, hr, hs₁⟩ := bind_eq_some_iff.mp hs₁
    cases hs₁
    exact joins_cons hjoin (hop _ _ _ _ hr) (ih h)

lemma mem_of_mem_comparedFields {α β : Type} {left : List (String × α)} {right : List (String × β)}
    {f : String × α × β} (h : f ∈ comparedFields left right) :
    (f.1, f.2.1) ∈ left ∧ (f.1, f.2.2) ∈ right := by
  obtain ⟨⟨name, l⟩, hl, hf⟩ := mem_filterMap.mp h
  obtain ⟨r, hr, rfl⟩ := map_eq_some_iff.mp hf
  exact ⟨hl, mem_of_lookup_eq_some hr⟩

/-- A comparison of two record columns of `n` rows that compares a field starts from `n` rows. -/
lemma comparedRows_eq {left right : List (String × ColumnValue)} {rows : ℕ}
    (h : comparedRows left right = some rows) (hl : (ColumnValue.records left).HasRows n)
    (hr : (ColumnValue.records right).HasRows n) (hne : comparedFields left right ≠ []) :
    rows = n := by
  cases hl with
  | records hl =>
    cases hr with
    | records hr =>
      rw [comparedRows] at h
      obtain ⟨lens, hlens, h⟩ := bind_eq_some_iff.mp h
      cases h
      replace hlens := mapM_eq_some_iff_forall₂.mp hlens
      have hall : ∀ len ∈ lens, len = n := by
        intro len hlen
        obtain ⟨f, hf, hflen⟩ := exists_of_forall₂_mem_right hlens hlen
        obtain ⟨hfl, hfr⟩ := mem_of_mem_comparedFields hf
        simp only [bind_eq_bind, bind_eq_some_iff, Option.some.injEq] at hflen
        obtain ⟨a, ha, b, hb, rfl⟩ := hflen
        rw [(hl _ hfl).len_eq ha, (hr _ hfr).len_eq hb, Nat.min_self]
      cases lens with
      | nil =>
        rw [forall₂_nil_right_iff] at hlens
        exact absurd hlens hne
      | cons len lens =>
        obtain ⟨m, hm⟩ := isSome_iff_exists.mp (isSome_min?_of_ne_nil (cons_ne_nil len lens))
        rw [hm, getD_some]
        exact hall m (min?_mem hm)

lemma forall₂_columns {fs : List (String × Val)} (h : List.Forall₂ (SameKey (Val.Is t)) fs xs) :
    List.Forall₂ (SameKey fun v c => ∃ m, v.Is t ⟨c, m⟩) fs
      (xs.map fun f => (f.1, f.2.column)) := by
  rw [forall₂_map_right_iff]
  exact h.imp fun _ x hx => ⟨hx.1, x.2.made, hx.2⟩

/-- **An operation computes what the unfused operation does**, over two scalars or, for a
comparison, over two products. -/
theorem Parser.operation_spec (rt : Runtime) {a b : Val} (h : st.operation op a b = some r) :
    Operates rt op st a b r := by
  revert h
  refine operation.partial_correctness op (Operates rt op) ?_ st a b r
  intro operation ih st a b r h
  cases hjoin : joinOf op with
  | none =>
    rw [hjoin] at h
    exact scalarOperation_spec h
  | some join =>
    obtain ⟨k, rfl⟩ : ∃ k, op = .compare k := by
      cases op with
      | compare k => exact ⟨k, rfl⟩
      | arithmetic | boolLogic | concat => cases hjoin
    rw [hjoin] at h
    dsimp only at h
    split at h
    · exact scalarOperation_spec h
    · rename_i left right hleft hright
      obtain ⟨⟨joined, st'⟩, hfold, h⟩ := bind_eq_some_iff.mp h
      obtain ⟨slot, hslot, h⟩ := bind_eq_some_iff.mp h
      cases h
      obtain rfl : joined = some slot := hslot
      have hjoins : Joins rt k (comparedFields left right) (none, st) (some slot, st') := by
        refine joins_foldlM hjoin ih (Eq.trans ?_ hfold)
        congr 1
        funext x f
        obtain ⟨joined, st⟩ := x
        obtain ⟨name, l, r⟩ := f
        cases operation st l r with
        | none => rfl
        | some r => cases joined <;> rfl
      refine ⟨hjoins.grows, hjoins.last (by simp) slot rfl, ?_⟩
      intro input n t x y c ht htidy hx hy hc
      obtain ⟨xs, hxs, -, hxfields⟩ := hx.fieldsOf hleft
      obtain ⟨ys, hys, -, hyfields⟩ := hy.fieldsOf hright
      have hxrows := hx.hasRows
      have hyrows := hy.hasRows
      rw [hxfields.column] at hc hxrows
      rw [hyfields.column] at hc hyrows
      rw [applyBinopColumn_records hjoin] at hc
      obtain ⟨rows, hrows, hc⟩ := bind_eq_some_iff.mp hc
      obtain ⟨out, hout, rfl⟩ := map_eq_some_iff.mp hc
      have hcompared := forall₂_comparedFields (forall₂_columns hxs) (forall₂_columns hys)
      have hne : comparedFields (xs.map fun f => (f.1, f.2.column))
          (ys.map fun f => (f.1, f.2.column)) ≠ [] := by
        intro hnil
        rw [hnil, forall₂_nil_right_iff] at hcompared
        rw [hcompared] at hfold
        exact absurd (congrArg Prod.fst (Option.some.inj hfold)) (by simp)
      obtain rfl := comparedRows_eq hrows hxrows hyrows hne
      rw [compareFields_eq] at hout
      exact hjoins.sound t ht htidy rfl hcompared hout
    · cases h

/-! ## Results -/

/-- The slot holds a column, and the empty column prepared for it has the column's shape exactly
where nothing in it is converted. -/
structure Trace.Prepares (t : Trace rt input n) (slot : ℕ) (x : Shown) : Prop where
  column : t.cols[slot]? = some x.column
  empty : ∃ e, t.empties[slot]? = some e ∧ (e = x.column.emptyLike ↔ x.made.converts = false)

lemma Trace.Prepares.mono (htu : t.Le u) (h : t.Prepares slot x) : u.Prepares slot x := by
  obtain ⟨e, he, hx⟩ := h.empty
  exact ⟨htu.cols h.column, e, htu.empties he, hx⟩

lemma Trace.Holds.prepares (h : t.Holds slot x) : t.Prepares slot x := by
  obtain ⟨e, he, hm⟩ := h.made
  refine ⟨h.column, e, he, ?_⟩
  obtain ⟨c, m⟩ := x
  cases hm with
  | plain => exact iff_of_true rfl rfl
  | converted =>
    refine iff_of_false (fun h => ?_) (by simp [Made.converts])
    obtain ⟨htype, -⟩ := ColumnValue.base.inj h
    cases htype

/-- The fields' empty columns have the columns' shapes where no field converts. -/
lemma empties_eq_iff {es : List (String × ColumnValue)}
    (h : List.Forall₂ (SameKey fun e x => e = x.column.emptyLike ↔ x.made.converts = false) es xs) :
    es = xs.map (fun f => (f.1, f.2.column.emptyLike)) ↔
      (xs.any fun f => f.2.made.converts) = false := by
  induction h with
  | nil => simp
  | @cons e x es xs hex _ ih =>
    obtain ⟨name, e⟩ := e
    obtain ⟨rfl, hex⟩ := hex
    rw [map_cons, List.cons.injEq, any_cons, Bool.or_eq_false_iff, ← ih, ← hex]
    simp

lemma Trace.record (t : Trace rt input n) {named : List (String × ℕ)} (hfields : x.HasFields xs)
    (hasc : KeysAscend xs) (hne : xs ≠ []) (hnamed : List.Forall₂ (SameKey t.Prepares) named xs) :
    ∃ u : Trace rt input n, u.instrs = t.instrs ++ [.record named] ∧
      u.Prepares t.instrs.length x := by
  have hkeys := keys_eq_of_forall₂ (fun _ _ h => h.1) hnamed
  have hcol : (Instr.record named).column rt input n t.cols = some x.column := by
    rw [hfields.column]
    simp only [Instr.column, bind_eq_bind, bind_eq_some_iff, Option.some.injEq]
    refine ⟨_, mapM_eq_some_iff_forall₂.mpr ?_, rfl⟩
    rw [forall₂_map_right_iff]
    exact hnamed.imp fun f x hfx => by rw [hfx.2.column, hfx.1, map_some]
  obtain ⟨u, e, hu, hc, he, hempty, -⟩ := t.push hcol (fun fields hf => by
    obtain rfl := Instr.record.inj hf
    refine ⟨by rwa [KeysAscend, hkeys], ?_⟩
    rintro rfl
    exact hne (forall₂_nil_left_iff.mp hnamed))
  refine ⟨u, hu, hc, e, he, ?_⟩
  simp only [ScalarProgram.emptyColumn, bind_eq_bind, bind_eq_some_iff, Option.some.injEq] at hempty
  obtain ⟨es, hes, rfl⟩ := hempty
  have hes' : List.Forall₂
      (SameKey fun e x => e = x.column.emptyLike ↔ x.made.converts = false) es xs := by
    refine (forall₂_through (mapM_eq_some_iff_forall₂.mp hes) hnamed).imp ?_
    rintro e x ⟨f, -, hfe, hfx⟩
    obtain ⟨e', he', hx⟩ := hfx.2.empty
    obtain rfl : (f.1, e') = e := by simpa [he'] using hfe
    exact ⟨hfx.1, hx⟩
  rw [hfields.converts, ← empties_eq_iff hes', hfields.column, ColumnValue.emptyLike_records,
    map_map, collect_of_keysAscend (by
      rwa [KeysAscend, keys_eq_of_forall₂ (fun _ _ h => h.1) hes'])]
  simp only [ColumnValue.records.injEq]
  rfl

/-- What building a result does. -/
structure Parser.Outputs (rt : Runtime) (st : Parser) (v : Val) (r : (ℕ × Extent) × Parser) :
    Prop where
  grows : st.Grows r.2
  record : v.fieldsOf.isSome → ∃ instrs fields, r.2.instrs = instrs ++ [.record fields] ∧
    r.1.1 = instrs.length
  sound : ∀ {input n} (t : Trace rt input n) {x : Shown}, t.instrs = st.instrs → st.Tidy →
    v.Is t x → ∃ u : Trace rt input n, u.instrs = r.2.instrs ∧ u.Prepares r.1.1 x

/-- What building the fields of a result does: each is put into a slot. -/
lemma Parser.outputs_foldlM {output : Parser → Val → Option ((ℕ × Extent) × Parser)}
    (hout : ∀ st v r, output st v = some r → Outputs rt st v r) {fields : List (String × Val)}
    {named named' : List (String × ℕ)} {extents extents' : List (String × Extent)}
    (h : fields.foldlM (fun (s : List (String × ℕ) × List (String × Extent) × Parser) f => do
      let r ← output s.2.2 f.2
      some (s.1 ++ [(f.1, r.1.1)], insertEntry f.1 r.1.2 s.2.1, r.2)) (named, extents, st) =
        some (named', extents', st')) :
    st.Grows st' ∧ ∀ {input n} (t : Trace rt input n) {xs : List (String × Shown)},
      t.instrs = st.instrs → st.Tidy → List.Forall₂ (SameKey (Val.Is t)) fields xs →
      ∃ (u : Trace rt input n) (added : List (String × ℕ)), u.instrs = st'.instrs ∧
        named' = named ++ added ∧ List.Forall₂ (SameKey u.Prepares) added xs := by
  induction fields generalizing named extents st with
  | nil =>
    obtain ⟨rfl, rfl, rfl⟩ := Option.some.inj h
    refine ⟨.refl _, fun t xs ht _ hxs => ⟨t, [], ht, by simp, ?_⟩⟩
    cases hxs
    exact .nil
  | cons f fields ih =>
    rw [foldlM_cons] at h
    obtain ⟨s, hs, h⟩ := bind_eq_some_iff.mp h
    obtain ⟨r, hr, hs⟩ := bind_eq_some_iff.mp hs
    cases hs
    obtain ⟨hgrows, hsound⟩ := ih h
    have hf := hout _ _ _ hr
    refine ⟨hf.grows.trans hgrows, fun t xs ht htidy hxs => ?_⟩
    cases hxs with
    | @cons _ x _ xs hx hxs =>
      obtain ⟨u, hu, hprep⟩ := hf.sound t ht htidy hx.2
      have htu := Trace.le_of_grows hf.grows ht hu
      obtain ⟨w, added, hw, hnamed, hadded⟩ := hsound u hu (hf.grows.tidy htidy)
        (hxs.imp fun _ _ h => ⟨h.1, h.2.mono htu⟩)
      refine ⟨w, (f.1, r.1.1) :: added, hw, by rw [hnamed, append_assoc]; rfl, .cons ?_ hadded⟩
      exact ⟨hx.1, hprep.mono (Trace.le_of_grows hgrows hu hw)⟩

/-- **A result is built of its value's columns.** -/
theorem Parser.output_spec (rt : Runtime) (h : st.output v = some r) : Outputs rt st v r := by
  revert h
  refine output.partial_correctness (Outputs rt) ?_ st v r
  intro output ih st v r h
  split at h
  · rename_i hnone
    obtain ⟨hgrows, hsound⟩ := column_spec rt h
    refine ⟨hgrows, by simp [hnone], fun t x ht htidy hx => ?_⟩
    obtain ⟨u, hu, hslot⟩ := hsound t ht htidy hx
    exact ⟨u, hu, hslot.prepares⟩
  · cases h
  rename_i fields hne hfields
  obtain ⟨⟨named, extents, st'⟩, hfold, h⟩ := bind_eq_some_iff.mp h
  cases h
  obtain ⟨hgrows, hsound⟩ := outputs_foldlM ih (Eq.trans (by congr 1) hfold)
  refine ⟨hgrows.trans (st'.grows_emit _), fun _ => ⟨_, _, rfl, rfl⟩, ?_⟩
  intro input n t x ht htidy hx
  obtain ⟨xs, hxs, hasc, hx⟩ := hx.fieldsOf hfields
  obtain ⟨u, added, hu, hnamed, hadded⟩ := hsound t ht htidy hxs
  obtain rfl : named = added := hnamed
  have hxsne : xs ≠ [] := by
    rintro rfl
    exact hne (forall₂_nil_right_iff.mp hxs)
  obtain ⟨w, hw, hprep⟩ := u.record hx (hasc.of_forall₂ hxs) hxsne hadded
  exact ⟨w, by rw [hw, hu], by rw [← hu]; exact hprep⟩

end

end Cambra
