import Condor.ClassAds.EvaluateRuns

/-!
# How deep evaluation goes

A state allows a number of attribute references inside each other, and below each of them an
evaluation goes down an expression.
-/

namespace Condor.ClassAds

open Lib List

variable {D : Type}

mutual

def Expr.span : Expr D → Nat
  | .select e _ => e.span + 1
  | .op1 _ t => t.span + 1
  | .op2 _ t1 t2 => max t1.span t2.span + 1
  | .op3 _ t1 t2 t3 => max t1.span (max t2.span t3.span) + 1
  | .fnCall _ args => spans args + 1
  | .exprList exprs _ => spans exprs
  | .literal _ _ => 0
  | .attrRef _ _ => 0
  | .classAd _ => 0

def spans : List (Expr D) → Nat
  | [] => 0
  | e::es => max e.span (spans es)

end

variable {es : List (Expr D)}

private theorem span_le_spans {e : Expr D} (h : e ∈ es) : e.span ≤ spans es := by
  induction es with
  | nil => cases h
  | cons x es ih =>
    rw [spans]
    rcases List.mem_cons.mp h with rfl | h
    · exact Nat.le_max_left _ _
    · exact Nat.le_trans (ih h) (Nat.le_max_right _ _)

private theorem spans_le {n : Nat} (h : ∀ e ∈ es, e.span ≤ n) : spans es ≤ n := by
  induction es with
  | nil => exact Nat.zero_le n
  | cons x es ih =>
    rw [spans]
    exact Nat.max_le.mpr ⟨h x (by simp),ih fun e he => h e (by simp [he])⟩

private theorem spans_map {f : Expr D → Expr D}
    (h : ∀ e ∈ es, (f e).span = e.span) : spans (es.map f) = spans es := by
  induction es with
  | nil => rfl
  | cons x es ih =>
    simp only [map_cons,spans]
    rw [h x (by simp),ih fun e he => h e (by simp [he])]

private theorem span_setParentScope (scope : AdId) (e : Expr D) :
    (e.setParentScope scope).span = e.span := by
  induction e using Expr.setParentScope.induct with
  | case1 e attr ih | case2 op t ih => simp [Expr.setParentScope,Expr.span,ih]
  | case3 op t1 t2 ih1 ih2 => simp [Expr.setParentScope,Expr.span,ih1,ih2]
  | case4 op t1 t2 t3 ih1 ih2 ih3 => simp [Expr.setParentScope,Expr.span,ih1,ih2,ih3]
  | case5 name args ih | case6 exprs p ih =>
    simp only [Expr.setParentScope,Expr.span]
    rw [spans_map ih]
  | case7 e h1 h2 h3 h4 h5 h6 =>
    cases e with
    | select e attr => exact absurd rfl (h1 e attr)
    | op1 op t => exact absurd rfl (h2 op t)
    | op2 op t1 t2 => exact absurd rfl (h3 op t1 t2)
    | op3 op t1 t2 t3 => exact absurd rfl (h4 op t1 t2 t3)
    | fnCall name args => exact absurd rfl (h5 name args)
    | exprList exprs p => exact absurd rfl (h6 exprs p)
    | literal | attrRef | classAd => simp [Expr.setParentScope]

namespace EvalValue

def span : EvalValue D → Nat
  | .list es _ => spans es
  | _ => 0

end EvalValue

private theorem span_madeElement (newRoot : AdId) (v : EvalValue D) :
    (madeElement newRoot v).span = v.span := by
  cases v with
  | scalar | classAd => rfl
  | list es scope => exact spans_map fun e _ => span_setParentScope newRoot e

inductive Program.Within (K : Nat) : Program D → Prop
  | answer {ok : Bool} {v : EvalValue D} (h : v.span ≤ K) : Within K (.answer ok v)
  | argument {i : Nat} {next : Result D → Program D}
    (h : ∀ r : Result D, r.2.span ≤ K → Within K (next r)) : Within K (.argument i next)
  | evaluate {e : Expr D} {next : Result D → Program D}
    (h : ∀ r : Result D, r.2.span ≤ K → Within K (next r)) : Within K (.evaluate e next)
  | evaluateIn {scope : AdId} {e : Expr D} {next : Result D → Program D}
    (h : ∀ r : Result D, r.2.span ≤ K → Within K (next r)) : Within K (.evaluateIn scope e next)

/-- No expression of an ad is beyond a span, and functions make none that is. -/
structure Universe.Within (u : Universe D) (K : Nat) : Prop where
  attrs : ∀ id, ∀ a ∈ (u.ad id).attrs, a.2.span ≤ K
  functions : ∀ name f scope args, u.functions name = some f → (∀ a ∈ args, Expr.span a ≤ K) →
    (f scope args).Within K

/-- At most `n` escapes, of expressions within a span. -/
structure Few (n K : Nat) (l : List (Expr D)) : Prop where
  length_le : l.length ≤ n
  span_le : ∀ e ∈ l, e.span ≤ K

theorem Few.append {n K : Nat} {l m : List (Expr D)} (h : Few n K (l ++ m)) :
    Few n K l ∧ Few n K m := by
  have hlen := h.length_le
  rw [length_append] at hlen
  constructor
  · exact ⟨by omega,fun e he => h.span_le e (by simp [he])⟩
  · exact ⟨by omega,fun e he => h.span_le e (by simp [he])⟩

namespace Operation

variable [Doubles D]

private theorem span_compareCoerced (op : OpKind) (exact : Bool) (coerced : ValueType)
    (v w : EvalValue D) : (compareCoerced op exact coerced v w).span = 0 := by
  unfold compareCoerced
  split <;> first | rfl | (cases op <;> rfl)

private theorem span_doComparison (op : OpKind) (v w : EvalValue D) :
    (doComparison op v w).span = 0 := by
  unfold doComparison
  simp only
  split
  · split
    · rfl
    · split
      · rfl
      · exact span_compareCoerced _ _ _ _ _
  · split
    · rfl
    · split
      · rfl
      · exact span_compareCoerced _ _ _ _ _
  · exact span_compareCoerced _ _ _ _ _

private theorem span_doTimeArithmetic (op : OpKind) (v w : EvalValue D) :
    (doTimeArithmetic op v w).span = 0 := by
  unfold doTimeArithmetic
  split <;> rfl

private theorem span_doArithmetic (op : OpKind) (v w : EvalValue D) :
    (doArithmetic op v w).span = 0 := by
  unfold doArithmetic
  split
  · rfl
  · split
    · split <;> rfl
    · simp only
      split
      · unfold doIntegerArithmetic
        split <;> first | rfl | (split <;> rfl)
      · unfold doRealArithmetic
        simp only
        split <;> first | rfl | (split <;> rfl)
      · exact span_doTimeArithmetic _ _ _
      · exact span_doTimeArithmetic _ _ _
      · rfl

omit [Doubles D] in
theorem span_ofTruth (t : Truth) : (ofTruth t : EvalValue D).span = 0 := by
  cases t <;> rfl

private theorem span_doLogical (oldSemantics : Bool) (op : OpKind) (v w : EvalValue D) :
    (doLogical oldSemantics op v w).span = 0 := by
  unfold doLogical
  split
  · rfl
  · rfl
  · split
    · split
      · rfl
      · exact span_ofTruth _
    · split <;> first | rfl | exact span_ofTruth _
    · split <;> first | rfl | exact span_ofTruth _
    · rfl

omit [Doubles D] in
theorem span_doBitwise (op : OpKind) (v w : EvalValue D) : (doBitwise op v w).span = 0 := by
  unfold doBitwise
  split <;> first | rfl | (split <;> rfl)

omit [Doubles D] in
theorem span_strictResult {vs : List (EvalValue D)} {v : EvalValue D}
    (h : strictResult vs = some v) : v.span = 0 := by
  unfold strictResult at h
  split at h
  · cases h
    rfl
  · split at h
    · cases h
      rfl
    · cases h

private theorem span_doOperation {K : Nat} (oldSemantics : Bool) (op : OpKind)
    {vs : List (EvalValue D)} (hvs : ∀ v ∈ vs, v.span ≤ K) :
    EvalValue.span (Id.run (doOperation oldSemantics op vs fun _ _ => pure .undefined)) ≤ K := by
  have hget : ∀ i, (vs.getD i .undefined).span ≤ K := by
    intro i
    rw [getD_eq_getElem?_getD]
    cases hi : vs[i]? with
    | none => exact Nat.zero_le K
    | some v => exact hvs v (mem_of_getElem? hi)
  have hzero : ∀ {v : EvalValue D}, v.span = 0 → v.span ≤ K := fun h => h ▸ Nat.zero_le K
  unfold doOperation
  simp only
  split
  · exact hget 0
  · split
    · exact hget 0
    · exact Nat.zero_le K
  · split
    · rename_i v hv
      split at hv
      · exact hzero (span_strictResult hv)
      · cases hv
    · split
      · exact hzero (span_doComparison _ _ _)
      · exact hzero (span_doArithmetic _ _ _)
      · exact hzero (span_doLogical _ _ _ _)
      · exact hzero (span_doBitwise _ _ _)
      · split
        · split
          · exact Nat.zero_le K
          · split
            · exact Nat.zero_le K
            · exact hget 1
            · exact hget 2
        · exact Nat.zero_le K

end Operation

section

variable {u : Universe D} {eval : Evaluator D} {s : EvalState} {n K : Nat}

/-- The value spans no more than `K`. -/
def Small (K : Nat) (r : Result D) : Prop := r.2.span ≤ K

private theorem settles_succeed {v : EvalValue D} (h : v.span ≤ K) :
    Watch.Settles (Few n K) (succeed v) (Small K) :=
  Watch.Settles.pure h

private theorem settles_failWith {v : EvalValue D} (h : v.span ≤ K) :
    Watch.Settles (Few n K) (failWith v) (Small K) :=
  Watch.Settles.pure h

private theorem Few.settles_bind {α β : Type} {x : Watch (Expr D) α} {f : α → Watch (Expr D) β}
    {P : α → Prop} {Q : β → Prop} (hx : Watch.Settles (Few n K) x P)
    (hf : ∀ a, P a → Watch.Settles (Few n K) (f a) Q) : Watch.Settles (Few n K) (x >>= f) Q :=
  Watch.Settles.bind (fun _ _ => Few.append) hx hf

private theorem settles_ite {α : Type} {c : Bool} {x y : Watch (Expr D) α} {Q : α → Prop}
    (hx : Watch.Settles (Few n K) x Q) (hy : Watch.Settles (Few n K) y Q) :
    Watch.Settles (Few n K) (if c = true then x else y) Q := by
  cases c with
  | true => exact hx
  | false => exact hy

/-- What the calls under a call in state `s` give: the evaluations that the state counts, and
those that escape. -/
structure Handles (eval : Evaluator D) (s : EvalState) (n K : Nat) : Prop where
  counted : ∀ scope e, Expr.span e ≤ K →
    Watch.Settles (Few n K) (deepen eval { s with curAd := scope } e) (Small K)
  escaped : ∀ s' e, s'.depthRemaining ≤ maxClassadRecursion →
    Watch.Settles (Few n K) (escape e (eval s' e)) (Small K)
  selected : ∀ s' e attr, s'.depthRemaining ≤ maxClassadRecursion →
    Watch.Settles (Few n K) (escape e (eval s' (.select e attr))) (Small K)

def Expr.Fits (K : Nat) : Expr D → Prop
  | .select e _ => e.span ≤ K
  | e => e.span ≤ K

private theorem Expr.fits_of_span {e : Expr D} (h : e.span ≤ K) : e.Fits K := by
  cases e with
  | select e attr => exact Nat.le_of_succ_le h
  | _ => exact h

private theorem Expr.Fits.span_le {e : Expr D} (h : e.Fits K) : e.span ≤ K + 1 := by
  cases e with
  | select e attr => exact Nat.succ_le_succ h
  | _ => exact Nat.le_succ_of_le h

def HandlesBelow (eval : Evaluator D) (s : EvalState) (n K : Nat) (e : Expr D) : Prop :=
  ∀ t : Expr D, t.span < e.span → t.span ≤ K →
    Watch.Settles (Few n K) (eval s t) (Small K)

namespace Universe

private theorem span_found (hu : u.Within K) {rootAd : Option AdId} {name : Name} {e : Expr D}
    {id : AdId} :
    ∀ (m : Nat) (start : AdId), u.lookupFrom rootAd name m start = .ok e id → e.span ≤ K := by
  intro m
  induction m with
  | zero => intro start h; cases h
  | succ m ih =>
    intro start h
    unfold Heap.lookupFrom at h
    split at h
    · rename_i x hx
      cases h
      obtain ⟨a,ha,rfl⟩ := Option.map_eq_some_iff.mp hx
      exact hu.attrs _ a (mem_of_find?_eq_some ha)
    · split at h
      · split at h
        · cases h
        · cases h
          exact Nat.zero_le K
      · split at h
        · cases h
          exact Nat.zero_le K
        · split at h
          · cases h
          · split at h
            · cases h
              exact Nat.zero_le K
            · exact ih _ h

private theorem evaluateFound_settles (hs : Handles eval s n K) {found : Heap.Found D}
    (hfound : ∀ e id, found = .ok e id → e.span ≤ K) :
    Watch.Settles (Few n K) (evaluateFound eval s found) (Small K) := by
  cases found with
  | fail => exact settles_failWith (Nat.zero_le K)
  | undefined => exact settles_succeed (Nat.zero_le K)
  | ok e ad => exact hs.counted (some ad) e (hfound e ad rfl)

private theorem selectEach_settles (hs : Handles eval s n K) (attr : Name) (es : List (Expr D)) :
    Watch.Settles (Few n K) (u.selectEach eval s attr es) fun made =>
      ∀ l, made = some l → ∀ e ∈ l, e.span ≤ K := by
  induction es with
  | nil =>
    refine Watch.Settles.pure ?_
    rintro l hl
    cases hl
    simp
  | cons e es ih =>
    refine Few.settles_bind (hs.selected (u.setScopes s.curAd) e attr (Nat.le_refl _)) ?_
    intro r hr
    refine settles_ite ?_ (Watch.Settles.pure (by rintro l hl; cases hl))
    refine Few.settles_bind ih ?_
    intro made hmade
    refine Watch.Settles.pure ?_
    intro l hl x hx
    obtain ⟨rest,hrest,rfl⟩ := Option.map_eq_some_iff.mp hl
    rcases List.mem_cons.mp hx with rfl | hx
    · rw [span_madeElement]
      exact hr
    · exact hmade rest hrest x hx

private theorem selectFrom_settles (hu : u.Within K) (hs : Handles eval s n K) (attr : Name)
    (v : EvalValue D) :
    Watch.Settles (Few n K) (u.selectFrom eval eval s attr v) (Small K) := by
  cases v with
  | scalar c => cases c <;> exact settles_succeed (Nat.zero_le K)
  | classAd ad => exact evaluateFound_settles hs fun e id h => span_found hu _ _ h
  | list es scope =>
    refine Few.settles_bind (selectEach_settles hs attr es) ?_
    intro made hmade
    cases made with
    | none => exact settles_failWith (Nat.zero_le K)
    | some made => exact hs.counted s.curAd _ (spans_le (hmade made rfl))

private theorem subscript_settles (hs : Handles eval s n K) {v w : EvalValue D} (hv : v.span ≤ K) :
    Watch.Settles (Few n K) (u.subscript eval s v w) fun x => x.span ≤ K := by
  unfold subscript
  split
  · rename_i ad index
    cases he : (u.ad ad).lookup index with
    | none => exact Watch.Settles.pure (Nat.zero_le K)
    | some e =>
      refine Few.settles_bind (hs.escaped (u.setScopes (some ad)) e (Nat.le_refl _)) ?_
      intro r hr
      refine Watch.Settles.pure ?_
      split
      · exact hr
      · exact Nat.zero_le K
  · rename_i es scope i
    split
    · exact Watch.Settles.pure (Nat.zero_le K)
    · rename_i e he
      have hmem : e ∈ es := by
        split at he
        · cases he
        · exact mem_of_getElem? he
      have hspan : e.span ≤ K := Nat.le_trans (span_le_spans hmem) hv
      exact Few.settles_bind (hs.counted scope e hspan) fun r hr => Watch.Settles.pure hr
  · exact Watch.Settles.pure (Nat.zero_le K)

private theorem operands_settles {e : Expr D} (hb : HandlesBelow eval s n K e) {ts : List (Expr D)}
    (hts : ∀ t ∈ ts, t.span < e.span ∧ t.span ≤ K) :
    Watch.Settles (Few n K) (operands eval s ts) fun vs =>
      ∀ l, vs = some l → ∀ v ∈ l, v.span ≤ K := by
  induction ts with
  | nil =>
    refine Watch.Settles.pure ?_
    rintro l hl
    cases hl
    simp
  | cons t ts ih =>
    refine Few.settles_bind (hb t (hts t (by simp)).1 (hts t (by simp)).2) ?_
    intro r hr
    refine settles_ite ?_ (Watch.Settles.pure (by rintro l hl; cases hl))
    refine Few.settles_bind (ih fun x hx => hts x (by simp [hx])) ?_
    intro vs hvs
    refine Watch.Settles.pure ?_
    intro l hl x hx
    obtain ⟨rest,hrest,rfl⟩ := Option.map_eq_some_iff.mp hl
    rcases List.mem_cons.mp hx with rfl | hx
    · exact hr
    · exact hvs rest hrest x hx

private theorem operate_settles [Doubles D] (hs : Handles eval s n K) {e : Expr D}
    (hb : HandlesBelow eval s n K e) (op : OpKind) {vs : List (EvalValue D)}
    (hvs : ∀ v ∈ vs, v.span ≤ K) {ts : List (Expr D)}
    (hts : ∀ t ∈ ts, t.span < e.span ∧ t.span ≤ K) :
    Watch.Settles (Few n K) (u.operate eval eval s op vs ts) (Small K) := by
  refine Few.settles_bind (operands_settles hb hts) ?_
  intro ws hws
  cases ws with
  | none => exact settles_failWith (Nat.zero_le K)
  | some ws =>
    have hall : ∀ v ∈ vs ++ ws, v.span ≤ K := by
      intro v hv
      rcases List.mem_append.mp hv with hv | hv
      · exact hvs v hv
      · exact hws ws rfl v hv
    have hop : Watch.Settles (Few n K) (Operation.doOperation u.oldSemantics op (vs ++ ws)
        (u.subscript eval s)) fun x => x.span ≤ K := by
      rw [Operation.doOperation_eq]
      split
      · refine subscript_settles hs ?_
        rw [getD_eq_getElem?_getD]
        cases hi : (vs ++ ws)[0]? with
        | none => exact Nat.zero_le K
        | some v => exact hall v (mem_of_getElem? hi)
      · exact Watch.Settles.pure (Operation.span_doOperation _ _ hall)
    exact Few.settles_bind hop fun v hv => settles_succeed hv

private theorem run_settles (hs : Handles eval s n K) (hd : s.depthRemaining ≤ maxClassadRecursion)
    {args : List (Expr D)} (hargs : ∀ a ∈ args, Watch.Settles (Few n K) (eval s a) (Small K))
    {p : Program D} (hp : p.Within K) :
    Watch.Settles (Few n K) (u.run eval s args p) (Small K) := by
  induction hp with
  | answer h => exact Watch.Settles.pure h
  | @argument i next _ ih =>
    unfold run
    cases hi : args[i]? with
    | none => exact ih (false,.undefined) (Nat.zero_le K)
    | some a => exact Few.settles_bind (hargs a (mem_of_getElem? hi)) ih
  | evaluate _ ih => exact Few.settles_bind (hs.escaped s _ hd) ih
  | evaluateIn _ ih => exact Few.settles_bind (hs.escaped _ _ (Nat.le_refl _)) ih

private theorem span_literal [Doubles D] (value : Scalar D) (factor : NumberFactor) :
    (Literal.evaluate value factor).span = 0 := by
  unfold Literal.evaluate
  split
  · split <;> rfl
  · rfl
  · rfl

private theorem span_findAttr (hu : u.Within K) {attr : Name} {absolute : Bool} {e : Expr D}
    {id : AdId}
    (h : u.findAttr s attr absolute = .ok e id) : e.span ≤ K := by
  unfold findAttr at h
  split at h
  · cases h
  · split at h
    · split at h
      · cases h
      · exact span_found hu _ _ h
    · exact span_found hu _ _ h

private theorem step_settles [Doubles D] (hu : u.Within K) (hs : Handles eval s n K)
    (hd : s.depthRemaining ≤ maxClassadRecursion) {e : Expr D} (he : e.Fits K)
    (hb : HandlesBelow eval s n K e) :
    Watch.Settles (Few n K) (u.step eval s e) (Small K) := by
  cases e with
  | literal value factor => exact settles_succeed (span_literal value factor ▸ Nat.zero_le K)
  | attrRef attr absolute =>
    exact evaluateFound_settles hs fun e id h => span_findAttr hu h
  | select t attr =>
    refine Few.settles_bind (hb t (Nat.lt_succ_self _) he) ?_
    intro r hr
    exact settles_ite (selectFrom_settles hu hs attr r.2) (settles_failWith (Nat.zero_le K))
  | op1 op t =>
    refine operate_settles hs hb op (by simp) ?_
    simp only [Expr.Fits,Expr.span] at he
    simp only [mem_singleton,forall_eq,Expr.span]
    omega
  | op2 op t1 t2 =>
    simp only [Expr.Fits,Expr.span] at he
    have h1 : t1.span < (Expr.op2 op t1 t2).span ∧ t1.span ≤ K := by
      simp only [Expr.span]
      omega
    have h2 : ∀ t ∈ [t2], Expr.span t < (Expr.op2 op t1 t2).span ∧ t.span ≤ K := by
      simp only [mem_singleton,forall_eq,Expr.span]
      omega
    refine Few.settles_bind (hb t1 h1.1 h1.2) ?_
    intro r hr
    refine settles_ite ?_ (settles_failWith (Nat.zero_le K))
    cases u.decided op r.2 with
    | some b => exact settles_succeed (Nat.zero_le K)
    | none => exact operate_settles hs hb op (by simpa [Small] using hr) h2
  | op3 op t1 t2 t3 =>
    simp only [Expr.Fits,Expr.span] at he
    have hts : ∀ t ∈ [t1,t2,t3], Expr.span t < (Expr.op3 op t1 t2 t3).span ∧ t.span ≤ K := by
      simp only [mem_cons,not_mem_nil,or_false,forall_eq_or_imp,forall_eq,Expr.span]
      omega
    obtain ⟨h1,hrest⟩ := List.forall_mem_cons.mp hts
    refine Few.settles_bind (hb t1 h1.1 h1.2) ?_
    intro r hr
    refine settles_ite ?_ (settles_failWith (Nat.zero_le K))
    have hall : Watch.Settles (Few n K) (u.operate eval eval s op [r.2] [t2,t3]) (Small K) :=
      operate_settles hs hb op (by simpa [Small] using hr) hrest
    cases ht : u.chosen op r.2 t2 t3 with
    | none => exact hall
    | some t =>
      have hmem : t ∈ [t2,t3] := by
        unfold chosen at ht
        split at ht
        · obtain ⟨b,_,rfl⟩ := Option.map_eq_some_iff.mp ht
          cases b <;> simp
        · cases ht
      refine Few.settles_bind (hb t (hrest t hmem).1 (hrest t hmem).2) ?_
      intro c hc
      exact settles_ite (Watch.Settles.pure hc) hall
  | fnCall name args =>
    simp only [Expr.Fits,Expr.span] at he
    have hargs : ∀ a ∈ args, Expr.span a < (Expr.fnCall name args).span ∧ a.span ≤ K := by
      intro a ha
      have := span_le_spans ha
      simp only [Expr.span]
      omega
    change Watch.Settles (Few n K) (u.call eval s name args) (Small K)
    unfold call
    cases hf : u.functions name with
    | none => exact settles_succeed (Nat.zero_le K)
    | some f =>
      refine run_settles hs hd (fun a ha => hb a (hargs a ha).1 (hargs a ha).2) ?_
      exact hu.functions name f s.curAd args hf fun a ha => (hargs a ha).2
  | exprList exprs scope => exact settles_succeed he
  | classAd ad => exact settles_succeed (Nat.zero_le K)

/-- Enough fuel for an expression, if at most `n` expressions escape. -/
def callBound (n K : Nat) (s : EvalState) (e : Expr D) : Nat :=
  (n * (maxClassadRecursion + 1) + s.depthRemaining) * (K + 2) + e.span + 1

private theorem bound_le {a b x y fuel : Nat} (hab : a + 1 ≤ b) (hx : x ≤ K + 1)
    (h : b * (K + 2) + y + 1 ≤ fuel + 1) : a * (K + 2) + x + 1 ≤ fuel := by
  have hmul : (a + 1) * (K + 2) ≤ b * (K + 2) := Nat.mul_le_mul_right _ hab
  rw [Nat.succ_mul] at hmul
  omega

/-- By induction on the fuel; an escape takes one from `n`, and a counted evaluation takes one from
the depth. -/
theorem evaluate_settles [Doubles D] (hu : u.Within K) (fuel : Nat) :
    ∀ (n : Nat) (s : EvalState) (e : Expr D), s.depthRemaining ≤ maxClassadRecursion →
      e.Fits K → callBound n K s e ≤ fuel →
      Watch.Settles (Few n K) (u.evaluate fuel s e) (Small K) := by
  induction fuel with
  | zero =>
    intro n s e _ _ hf
    simp [callBound] at hf
  | succ fuel ih =>
    intro n s e hd he hf
    have hescape : ∀ (s' : EvalState) (x y : Expr D), s'.depthRemaining ≤ maxClassadRecursion →
        (x.span ≤ K → y.Fits K) →
        Watch.Settles (Few n K) (escape x (u.evaluate fuel s' y)) (Small K) := by
      intro s' x y hd' hy
      refine Watch.Settles.note ?_
      intro hfew
      have hlen := hfew.length_le
      rw [length_cons] at hlen
      obtain ⟨m,rfl⟩ : ∃ m, n = m + 1 := ⟨n - 1,by omega⟩
      have hfit := hy (hfew.span_le x (by simp))
      refine ih m s' y hd' hfit ?_ ⟨by omega,fun z hz => hfew.span_le z (by simp [hz])⟩
      refine bound_le ?_ hfit.span_le hf
      rw [Nat.succ_mul]
      omega
    refine u.step_settles hu ⟨?_,?_,?_⟩ hd he ?_
    · intro scope t ht
      unfold deepen
      simp only
      split
      · exact settles_failWith (Nat.zero_le K)
      · refine ih n _ t (by simp only; omega) (Expr.fits_of_span ht) ?_
        exact bound_le (by simp only; omega) (Nat.le_succ_of_le ht) hf
    · intro s' x hd'
      exact hescape s' x x hd' Expr.fits_of_span
    · intro s' x attr hd'
      exact hescape s' x (.select x attr) hd' fun h => h
    · intro t hlt ht
      refine ih n s t hd (Expr.fits_of_span ht) ?_
      simp only [callBound] at hf ⊢
      omega

end Universe

end

namespace Universe

variable [Doubles D] {u : Universe D} {s : EvalState} {e : Expr D} {H : Nat}

/-- Evaluation returns if and only if finitely many expressions escape from their state; `callBound`
bounds the nesting by their number. -/
theorem evaluate_returns_iff (hu : ∀ K, H ≤ K → u.Within K)
    (hd : s.depthRemaining ≤ maxClassadRecursion)
    (he : e.span ≤ H) :
    ((∃ fuel, (u.evaluate fuel s e).value.isSome) ↔
      ∃ n K, ∀ fuel, Few n K (u.evaluate fuel s e).seen) ∧
    ∀ n, (∀ fuel, Few n H (u.evaluate fuel s e).seen) →
      (u.evaluate (callBound n H s e) s e).value.isSome := by
  have hreturns : ∀ n K, H ≤ K → (∀ fuel, Few n K (u.evaluate fuel s e).seen) →
      (u.evaluate (callBound n K s e) s e).value.isSome := by
    intro n K hK hfew
    have hfit : e.Fits K := Expr.fits_of_span (Nat.le_trans he hK)
    obtain ⟨r,hr,_⟩ := evaluate_settles (hu K hK) _ n s e hd hfit (Nat.le_refl _) (hfew _)
    simp [hr]
  refine ⟨⟨?_,?_⟩,fun n hfew => hreturns n H (Nat.le_refl _) hfew⟩
  · rintro ⟨fuel,hfuel⟩
    obtain ⟨r,hr⟩ := Option.isSome_iff_exists.mp hfuel
    refine ⟨(u.evaluate fuel s e).seen.length,spans (u.evaluate fuel s e).seen,?_⟩
    intro m
    have hsub : (u.evaluate m s e).seen <+: (u.evaluate fuel s e).seen := by
      rcases Nat.le_total m fuel with hm | hm
      · exact (u.evaluate_below hm s e).1
      · have hsame : u.evaluate m s e = u.evaluate fuel s e := (u.evaluate_below hm s e).2 r hr
        exact hsame ▸ prefix_rfl
    exact ⟨hsub.length_le,fun x hx => span_le_spans (hsub.subset hx)⟩
  · rintro ⟨n,K,hfew⟩
    refine ⟨callBound n (max H K) s e,hreturns n (max H K) (Nat.le_max_left _ _) ?_⟩
    intro fuel
    exact ⟨(hfew fuel).length_le,fun x hx =>
      Nat.le_trans ((hfew fuel).span_le x hx) (Nat.le_max_right _ _)⟩

end Universe

section

/-- The ad `[a = e]`. -/
def adOf (e : Expr Float) : Universe Float where
  ad id := { attrs := if id = 0 then [(['a'],e)] else [] }
  parent_lt := by intro id p h; cases h
  newRoot := 1
  functions _ := none
  oldSemantics := true

def adScope : EvalState where
  rootAd := some 0
  curAd := some 0
  depthRemaining := maxClassadRecursion

theorem evaluate_returns_iff_ad :
    ((∃ fuel, ((adOf (.literal (.integer 1) .none)).evaluate fuel adScope
        (.attrRef ['a'] false)).value.isSome) ↔
      ∃ n K, ∀ fuel, Few n K ((adOf (.literal (.integer 1) .none)).evaluate fuel adScope
        (.attrRef ['a'] false)).seen) ∧
    ∀ n, (∀ fuel, Few n 0 ((adOf (.literal (.integer 1) .none)).evaluate fuel adScope
        (.attrRef ['a'] false)).seen) →
      ((adOf (.literal (.integer 1) .none)).evaluate
        (Universe.callBound n 0 adScope (.attrRef ['a'] false : Expr Float)) adScope
        (.attrRef ['a'] false)).value.isSome := by
  refine Universe.evaluate_returns_iff (H := 0) ?_ (Nat.le_refl _) (Nat.le_refl 0)
  intro K _
  refine ⟨?_,by rintro _ _ _ _ hf; cases hf⟩
  intro id a ha
  simp only [adOf] at ha
  split at ha
  · cases List.mem_singleton.mp ha
    exact Nat.zero_le K
  · cases ha

/-- `{a}.x`. -/
def listedSelf : Expr Float := .select (.exprList [.attrRef ['a'] false] (some 0)) ['x']

private theorem listedSelf_stuck (fuel : Nat) :
    ((adOf listedSelf).evaluate fuel adScope (.attrRef ['a'] false)).value = none ∧
    ((adOf listedSelf).evaluate fuel adScope (.select (.attrRef ['a'] false) ['x'])).value =
      none ∧
    ∀ d, ((adOf listedSelf).evaluate fuel { adScope with depthRemaining := d }
      listedSelf).value = none := by
  induction fuel using Nat.strongRecOn with
  | ind fuel ih =>
    cases fuel with
    | zero => exact ⟨rfl,rfl,fun _ => rfl⟩
    | succ n =>
      obtain ⟨hattr,_,hlist⟩ := ih n (Nat.lt_succ_self n)
      refine ⟨hlist 999,Watch.value_bind_of_none hattr,?_⟩
      intro d
      cases n with
      | zero => rfl
      | succ m =>
        obtain ⟨_,hsel,_⟩ := ih (m + 1) (Nat.lt_succ_self _)
        have hesc : (escape (.attrRef ['a'] false) ((adOf listedSelf).evaluate (m + 1) adScope
            (.select (.attrRef ['a'] false) ['x']))).value = none := hsel
        have heach : ∀ t : EvalState, t.curAd = some 0 →
            ((adOf listedSelf).selectEach ((adOf listedSelf).evaluate (m + 1)) t ['x']
              [.attrRef ['a'] false]).value = none := by
          intro t ht
          unfold Universe.selectEach
          rw [ht]
          exact Watch.value_bind_of_none hesc
        have hvalue : ((adOf listedSelf).evaluate (m + 1) { adScope with depthRemaining := d }
            (.exprList [.attrRef ['a'] false] (some 0))).value =
            some (true,.list [.attrRef ['a'] false] (some 0)) := rfl
        refine (Watch.value_bind_of_some hvalue).trans ?_
        exact Watch.value_bind_of_none (heach _ rfl)

/-- `[a = {a}.x]` returns for no fuel. -/
theorem listedSelf_never_returns :
    ¬ ∃ fuel, ((adOf listedSelf).evaluate fuel ((adOf listedSelf).setScopes (some 0))
      (.attrRef ['a'] false)).value.isSome := by
  rintro ⟨fuel,h⟩
  have hstuck := (listedSelf_stuck fuel).1
  change ((adOf listedSelf).evaluate fuel adScope (.attrRef ['a'] false)).value.isSome at h
  rw [hstuck] at h
  cases h

end

end Condor.ClassAds
