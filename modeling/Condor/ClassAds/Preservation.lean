import Condor.ClassAds.Regrouping

/-!
# What flattening keeps

The expression that `Flatten` leaves is compared with the one it was given, in the scope it was
flattened in and in the scopes that define more attributes.
-/

namespace Condor.ClassAds

open Operation List Option

variable {D : Type}

def Flat.pending : Flat D → Option OpKind
  | .tree _ (some (op,_)) => some op
  | _ => none

namespace Universe

/-- A universe with definitions of attributes that are undefined in `u`. -/
structure Extends (u u' : Universe D) : Prop where
  oldSemantics : u'.oldSemantics = u.oldSemantics
  findAttr : ∀ s attr absolute, u.findAttr s attr absolute ≠ .undefined →
    u'.findAttr s attr absolute = u.findAttr s attr absolute

variable [Doubles D] (u u' : Universe D)

/-- The parts of which the flattened form is used at once: operands, and what an attribute stands
for if it is a value. -/
inductive Operand (s : EvalState) : Expr D → EvalState → Expr D → Prop
  | target {attr : Name} {absolute : Bool} {e : Expr D} {ad : AdId} {v : EvalValue D}
    (hfound : u.findAttr s attr absolute = .ok e ad) (hdepth : s.depthRemaining ≠ 0)
    (hvalue : u.flatten { s with curAd := some ad, depthRemaining := s.depthRemaining - 1 } e =
      .value v) :
    Operand s (.attrRef attr absolute)
      { s with curAd := some ad, depthRemaining := s.depthRemaining - 1 } e
  | unary {op : OpKind} {t : Expr D} : Operand s (.op1 op t) s t
  | left {op : OpKind} {t1 t2 : Expr D} : Operand s (.op2 op t1 t2) s t1
  | right {op : OpKind} {t1 t2 : Expr D} : Operand s (.op2 op t1 t2) s t2
  | selector {op : OpKind} {t1 t2 t3 : Expr D} : Operand s (.op3 op t1 t2 t3) s t1
  | whenTrue {op : OpKind} {t1 t2 t3 : Expr D}
    (hsel : u.flatten s t1 ≠ .value (.boolean false)) : Operand s (.op3 op t1 t2 t3) s t2
  | whenFalse {op : OpKind} {t1 t2 t3 : Expr D}
    (hsel : u.flatten s t1 ≠ .value (.boolean true)) : Operand s (.op3 op t1 t2 t3) s t3

inductive FlatPart : EvalState → Expr D → EvalState → Expr D → Prop
  | refl (s : EvalState) (e : Expr D) : FlatPart s e s e
  | step {s s1 s' : EvalState} {e e1 e' : Expr D} (h : u.Operand s e s1 e1)
    (hrest : FlatPart s1 e1 s' e') : FlatPart s e s' e'

/-- In the scopes of `u'` the expression evaluates to the value, or as the expression does, that
is left of it by flattening it in `u`. -/
def KeepsMeaning (s : EvalState) (e : Expr D) : Prop :=
  match u.flatten s e with
  | .fail => True
  | .value v => u'.Evaluates s e v
  | .tree t p => ∀ v, u'.Evaluates s (withPending t p) v ↔ u'.Evaluates s e v

/-- The operands have pending operations of different operators, of which one is the operator they
are the operands of. -/
def DropsPending (s : EvalState) : Expr D → Prop
  | .op2 op t1 t2 => splits op ∧ ∃ op₁ op₂, (u.flatten s t1).pending = some op₁ ∧
      (u.flatten s t2).pending = some op₂ ∧ op₁ ≠ op₂ ∧ (op₁ = op ∨ op₂ = op)
  | _ => False

/-- `1 + x + 2 * y` becomes `1 + (x + y)`. -/
example :
    let literal (i : Int32) : Expr Float := .literal (.integer i) .none
    let attr (c : Char) : Expr Float := .attrRef [c] false
    (emptyUniverse true).flatten topScope
      (.op2 .addition (.op2 .addition (literal 1) (attr 'x'))
        (.op2 .multiplication (literal 2) (attr 'y'))) =
    .tree (.op2 .addition (attr 'x') (attr 'y')) (some (.addition,.integer 1)) := rfl

/-- A failure, an error, or a value that the logical operators do not take. -/
def Errs (x : Option (EvalValue D)) : Prop :=
  ∀ v, x = some v → (truth u.oldSemantics v).isErring

/-- The flattened operands of `op` are not taken in the order of evaluation, or constants change the
value by moving to the front. -/
def Misplaces (s : EvalState) (op : OpKind) : Flat D → Flat D → Prop
  | .value v1,.value v2 =>
    (u.decided op v1).isSome ∧ truth u.oldSemantics v2 = .other
  | .tree t1 p1,.value v2 =>
    if (u.decided op v2).isSome then u.Errs (u.value s (withPending t1 p1))
    else
      match p1 with
      | none => u.Moved op none (some (u.value s t1)) (some v2) none
      | some (op₁,v1) => op₁ = op ∧ u.Moved op (some v1) (some (u.value s t1)) (some v2) none
  | .value v1,.tree t2 (some (op₂,v2)) =>
    op₂ = op ∧ u.Moved op (some v1) none (some v2) (some (u.value s t2))
  | .tree t1 (some (op₁,v1)),.tree t2 none =>
    op₁ = op ∧ u.Moved op (some v1) (some (u.value s t1)) none (some (u.value s t2))
  | .tree t1 none,.tree t2 (some (op₂,v2)) =>
    op₂ = op ∧ u.Moved op none (some (u.value s t1)) (some v2) (some (u.value s t2))
  | .tree t1 (some (op₁,v1)),.tree t2 (some (op₂,v2)) =>
    op₁ = op ∧ op₂ = op ∧
      u.Moved op (some v1) (some (u.value s t1)) (some v2) (some (u.value s t2))
  | _,_ => False

/-- A selector that is no boolean and not undefined is an error for `Flatten`, but it may select,
and the failure of an arm counts. -/
def Misreads (s : EvalState) (v : EvalValue D) (t2 t3 : Expr D) : Prop :=
  v ≠ .undefined ∧ (∀ b, v ≠ .boolean b) ∧
    match v.isBooleanValueEquiv u.oldSemantics with
    | some b => u.value s (if b then t2 else t3) ≠ some .error
    | none => u.value s t2 = none ∨ u.value s t3 = none

/-- What flattening makes of the operands changes the value of the expression in `u'`. -/
def Spoils (s : EvalState) : Expr D → Prop
  | .op2 op t1 t2 => splits op ∧ u'.Misplaces s op (u.flatten s t1) (u.flatten s t2)
  | .op3 _ t1 t2 t3 => ∃ v, u.flatten s t1 = .value v ∧ u'.Misreads s v t2 t3
  | _ => False

def Settled : Flat D → Prop
  | .fail => True
  | .value v => v.isSimple
  | .tree t p => t.Operators ∧ ∀ op c, p = some (op,c) → c.isSimple ∧ u.Undecided op c

variable {u u'} {s : EvalState} {op : OpKind}

private theorem flatten_op1 (t : Expr D) :
    u.flatten s (.op1 op t) = keepUnary u.oldSemantics op (u.flatten s t) := by
  unfold flatten
  cases s.depthRemaining <;> rfl

private theorem flatten_op2 (t1 t2 : Expr D) :
    u.flatten s (.op2 op t1 t2) =
      if splits op then combine u.oldSemantics op (u.flatten s t1) (u.flatten s t2)
      else keep u.oldSemantics op (u.flatten s t1) (u.flatten s t2) := by
  unfold flatten
  cases s.depthRemaining <;> rfl

private theorem flatten_op3 (t1 t2 t3 : Expr D) :
    u.flatten s (.op3 op t1 t2 t3) =
      conditional op t1 (u.flatten s t1) (u.flatten s t2) (u.flatten s t3) := by
  unfold flatten
  cases s.depthRemaining <;> rfl

private theorem flatten_literal (c : Scalar D) (factor : NumberFactor) :
    u.flatten s (.literal c factor) = .value (Literal.evaluate c factor) := by
  unfold flatten
  cases s.depthRemaining <;> rfl

private theorem flatten_attrRef (attr : Name) (absolute : Bool) :
    u.flatten s (.attrRef attr absolute) =
      match u.findAttr s attr absolute with
      | .fail => .fail
      | .undefined => .tree (.attrRef attr absolute) none
      | .ok e ad =>
        if s.depthRemaining = 0 then .fail
        else
          match u.flatten { s with curAd := some ad, depthRemaining := s.depthRemaining - 1 } e with
          | .tree _ _ => .tree (.attrRef attr absolute) none
          | f => f := by
  unfold flatten
  cases hd : s.depthRemaining with
  | zero =>
    cases hfound : u.findAttr s attr absolute <;>
      simp only [flattenAt,flattenWith,hd,hfound,if_true]
  | succ n =>
    simp only [flattenAt,flattenWith,hd]
    rfl

variable {v : EvalValue D}

omit [Doubles D] in
theorem operators_literalOf (h : v.isSimple) : (literalOf v).Operators := by
  cases v with
  | scalar c => exact .literal h
  | list | classAd => cases h

variable {f : Flat D}

private theorem operators_toExpr (h : u.Settled f) : f.toExpr.Operators := by
  cases f with
  | fail => exact .literal rfl
  | value v => exact operators_literalOf h
  | tree t p =>
    cases p with
    | none => exact h.1
    | some p => exact .op2 (operators_literalOf (h.2 _ _ rfl).1) h.1

theorem decided_eq_none_iff
    (v : EvalValue D) : u.decided op v = none ↔ u.Undecided op v := by
  cases hd : deciding op with
  | none => simp [decided_strict hd,Undecided,hd]
  | some d => simp [decided_logical hd,Undecided,hd]

private theorem dontCare_left (v : EvalValue D) :
    dontCare u.oldSemantics op v .undefined = u.decided op v := by
  cases hd : deciding op with
  | none =>
    have hlog : isLogical op = false := by cases op <;> cases hd <;> rfl
    rw [decided_strict hd]
    simp [dontCare,hlog]
  | some d =>
    have hlog : isLogical op = true := by cases op <;> cases hd <;> rfl
    rw [decided_logical hd]
    simp only [dontCare,hlog,if_true,compute_logical u.oldSemantics hd]
    generalize truth u.oldSemantics v = t
    cases d <;> rcases t with _ | _ | _ | (_ | _) <;> rfl

private theorem dontCare_right (v : EvalValue D) :
    dontCare u.oldSemantics op .undefined v = u.decided op v := by
  cases hd : deciding op with
  | none =>
    have hlog : isLogical op = false := by cases op <;> cases hd <;> rfl
    rw [decided_strict hd]
    simp [dontCare,hlog]
  | some d =>
    have hlog : isLogical op = true := by cases op <;> cases hd <;> rfl
    rw [decided_logical hd]
    simp only [dontCare,hlog,if_true,compute_logical u.oldSemantics hd]
    generalize truth u.oldSemantics v = t
    cases d <;> rcases t with _ | _ | _ | (_ | _) <;> rfl

private theorem undecided_compute {v w : EvalValue D} (hv : u.Undecided op v)
    (hw : u.Undecided op w) :
    u.Undecided op (compute u.oldSemantics op [v,w]) := by
  intro d hd
  rw [truth_compute hd]
  have hlogic : ∀ (d : Bool) (t t' : Truth), t ≠ .value d → t' ≠ .value d →
      logicOf d t t' ≠ .value d := by decide
  exact hlogic d _ _ (hv d hd) (hw d hd)

variable {f1 f2 : Flat D}

private theorem settled_combine (hop : splits op) (h1 : u.Settled f1)
    (h2 : u.Settled f2) : u.Settled (combine u.oldSemantics op f1 f2) := by
  cases f1 with
  | fail => trivial
  | value v1 =>
    cases f2 with
    | fail => trivial
    | value v2 => exact simpleOr_compute h1 h2 _ rfl
    | tree t2 p2 =>
      simp only [combine,dontCare_left]
      cases hdec : u.decided op v1 with
      | some b => rfl
      | none =>
        have hv1 := (decided_eq_none_iff v1).mp hdec
        rcases p2 with _ | ⟨op₂,v2⟩
        · refine ⟨h2.1,?_⟩
          rintro op' c ⟨⟩
          exact ⟨h1,hv1⟩
        · obtain ⟨hv2,hund2⟩ := h2.2 op₂ v2 rfl
          dsimp only
          by_cases heq : op₂ = op
          · subst heq
            rw [if_pos rfl]
            refine ⟨h2.1,?_⟩
            rintro op' c ⟨⟩
            exact ⟨simpleOr_compute h1 hv2 _ rfl,undecided_compute hv1 hund2⟩
          · rw [if_neg heq]
            exact ⟨.op2 (operators_literalOf h1) (operators_toExpr h2),by simp⟩
  | tree t1 p1 =>
    cases f2 with
    | fail => trivial
    | value v2 =>
      simp only [combine,dontCare_right]
      cases hdec : u.decided op v2 with
      | some b => rfl
      | none =>
        have hv2 := (decided_eq_none_iff v2).mp hdec
        rcases p1 with _ | ⟨op₁,v1⟩
        · refine ⟨h1.1,?_⟩
          rintro op' c ⟨⟩
          exact ⟨h2,hv2⟩
        · obtain ⟨hv1,hund1⟩ := h1.2 op₁ v1 rfl
          dsimp only
          by_cases heq : op₁ = op
          · subst heq
            rw [if_pos rfl]
            refine ⟨h1.1,?_⟩
            rintro op' c ⟨⟩
            exact ⟨simpleOr_compute hv1 h2 _ rfl,undecided_compute hund1 hv2⟩
          · rw [if_neg heq]
            exact ⟨.op2 (operators_toExpr h1) (operators_literalOf h2),by simp⟩
    | tree t2 p2 =>
      have htree : (Expr.op2 op t1 t2).Operators := .op2 h1.1 h2.1
      rcases p1 with _ | ⟨op₁,v1⟩
      · rcases p2 with _ | ⟨op₂,v2⟩
        · exact ⟨htree,by simp⟩
        · simp only [combine]
          by_cases heq : op₂ = op
          · subst heq
            rw [if_pos rfl]
            exact ⟨htree,h2.2⟩
          · rw [if_neg heq]
            exact ⟨.op2 h1.1 (operators_toExpr h2),by simp⟩
      · rcases p2 with _ | ⟨op₂,v2⟩
        · simp only [combine]
          by_cases heq : op₁ = op
          · subst heq
            rw [if_pos rfl]
            exact ⟨htree,h1.2⟩
          · rw [if_neg heq]
            exact ⟨.op2 (operators_toExpr h1) h2.1,by simp⟩
        · obtain ⟨hv1,hund1⟩ := h1.2 op₁ v1 rfl
          obtain ⟨hv2,hund2⟩ := h2.2 op₂ v2 rfl
          simp only [combine]
          by_cases heq1 : op₁ = op
          · subst heq1
            by_cases heq2 : op₂ = op₁
            · subst heq2
              rw [if_pos ⟨rfl,rfl⟩]
              refine ⟨htree,?_⟩
              rintro op' c ⟨⟩
              exact ⟨simpleOr_compute hv1 hv2 _ rfl,undecided_compute hund1 hund2⟩
            · rw [if_neg (fun h => heq2 h.2),if_pos rfl]
              exact ⟨htree,h1.2⟩
          · rw [if_neg (fun h => heq1 h.1),if_neg heq1]
            by_cases heq2 : op₂ = op
            · subst heq2
              rw [if_pos rfl]
              exact ⟨htree,h2.2⟩
            · rw [if_neg heq2]
              exact ⟨.op2 (operators_toExpr h1) (operators_toExpr h2),by simp⟩

private theorem settled_keep (h1 : u.Settled f1) (h2 : u.Settled f2) :
    u.Settled (keep u.oldSemantics op f1 f2) := by
  have htree : u.Settled (.tree (.op2 op f1.toExpr f2.toExpr) none) :=
    ⟨.op2 (operators_toExpr h1) (operators_toExpr h2),by simp⟩
  cases f1 with
  | fail => trivial
  | value v1 =>
    cases f2 with
    | fail => trivial
    | value v2 => exact simpleOr_compute h1 h2 _ rfl
    | tree t2 p2 => exact htree
  | tree t1 p1 =>
    cases f2 with
    | fail => trivial
    | value | tree => exact htree

private theorem settled_keepUnary (h : u.Settled f) :
    u.Settled (keepUnary u.oldSemantics op f) := by
  cases f with
  | fail => trivial
  | value v => exact isSimple_compute _ _ (List.forall_mem_singleton.mpr h)
  | tree t p => exact ⟨.op1 (operators_toExpr h),by simp⟩

private theorem settled_folded (h : u.Settled f) : u.Settled f.folded := by
  cases f with
  | fail => trivial
  | value v => exact h
  | tree t p => exact ⟨operators_toExpr h,by simp⟩

variable {sel : Expr D} {f2 f3 : Flat D}

private theorem settled_keepArms (hsel : sel.Operators)
    (h2 : u.Settled f2) (h3 : u.Settled f3) : u.Settled (keepArms .ternary sel f2 f3) := by
  have htree : u.Settled (.tree (.op3 .ternary sel f2.toExpr f3.toExpr) none) :=
    ⟨.op3 hsel (operators_toExpr h2) (operators_toExpr h3),by simp⟩
  cases f2 with
  | fail => trivial
  | value | tree => cases f3 <;> trivial

private theorem settled_conditional (hsel : sel.Operators) {f1 f2 f3 : Flat D}
    (h1 : u.Settled f1) (h2 : u.Settled f2) (h3 : u.Settled f3) :
    u.Settled (conditional .ternary sel f1 f2 f3) := by
  unfold conditional
  split
  · trivial
  · exact settled_keepArms hsel h2 h3
  · split
    · exact settled_folded h2
    · exact settled_folded h3
  · rfl
  · exact settled_keepArms (operators_toExpr h1) h2 h3

variable {e : Expr D}

private theorem settled_flatten (hu : u.Operators) (s : EvalState) (he : e.Operators) :
    u.Settled (u.flatten s e) := by
  refine operators_induct (motive := fun s e => u.Settled (u.flatten s e)) u
    ?literal ?attrRef ?op1 ?op2 ?op3 s he
  case literal =>
    intro s c hc
    rw [flatten_literal]
    cases c <;> cases hc <;> rfl
  case attrRef =>
    intro s attr absolute hname ih
    have htree : u.Settled (.tree (.attrRef attr absolute) none) := ⟨.attrRef hname,by simp⟩
    rw [flatten_attrRef]
    cases hfound : u.findAttr s attr absolute with
    | fail => trivial
    | undefined => exact htree
    | ok e ad =>
      by_cases hd : s.depthRemaining = 0
      · simp only [if_pos hd]
        trivial
      · have h := ih e ad hfound hd (operators_findAttr hu hname hfound)
        simp only [if_neg hd]
        split
        · exact htree
        · exact h
  case op1 =>
    intro s op t _ ih
    rw [flatten_op1]
    exact settled_keepUnary ih
  case op2 =>
    intro s op t1 t2 _ _ ih1 ih2
    rw [flatten_op2]
    split
    · exact settled_combine ‹_› ih1 ih2
    · exact settled_keep ih1 ih2
  case op3 =>
    intro s t1 t2 t3 ht1 _ _ ih1 ih2 ih3
    rw [flatten_op3]
    exact settled_conditional ht1 ih1 ih2 ih3

private theorem value_literalOf (h : v.isSimple) :
    u.value s (literalOf v) = some v := by
  cases v with
  | scalar c =>
    rw [literalOf,value_literal]
    cases c <;> cases h <;> rfl
  | list | classAd => cases h

private theorem value_pending {t : Expr D} {op₁ : OpKind} {c : EvalValue D} (h : c.isSimple) :
    u.value s (withPending t (some (op₁,c))) = u.apply op₁ (some c) (u.value s t) := by
  rw [withPending,value_op2,value_literalOf h]

theorem apply_decided_iff {x : Option (EvalValue D)} {b : Bool}
    (h : u.decided op v = some b) :
    some (.boolean b) = u.apply op x (some v) ↔ ¬ u.Errs x := by
  cases hd : deciding op with
  | none => simp [decided_strict hd] at h
  | some d =>
    rw [decided_logical hd] at h
    split at h
    · rename_i htruth
      cases h
      rw [apply_logical hd]
      simp only [map_some,htruth]
      cases x with
      | none => simp [logicApply,Errs]
      | some w =>
        simp only [map_some,Errs,Option.some.injEq,forall_eq']
        generalize truth u.oldSemantics w = t
        cases b <;> rcases t with _ | _ | _ | (_ | _) <;>
          simp [logicApply,logicOf,ofTruth,Truth.isErring]
    · cases h

theorem compute_decided_iff (v w : EvalValue D) :
    some (compute u.oldSemantics op [v,w]) = u.apply op (some v) (some w) ↔
      ¬ ((u.decided op v).isSome ∧ truth u.oldSemantics w = .other) := by
  cases hdec : u.decided op v with
  | none => simp [apply,hdec]
  | some b =>
    have happly : u.apply op (some v) (some w) = some (.boolean b) := by simp [apply,hdec]
    rw [happly]
    cases hd : deciding op with
    | none => simp [decided_strict hd] at hdec
    | some d =>
      rw [decided_logical hd] at hdec
      split at hdec
      · rename_i htruth
        cases hdec
        rw [compute_logical u.oldSemantics hd,htruth]
        generalize truth u.oldSemantics w = t
        cases b <;> rcases t with _ | _ | _ | (_ | _) <;> simp [logicOf,ofTruth]
      · cases hdec

private theorem not_moved_of_decided {b : Bool} (h : u.decided op v = some b)
    {c2 : Option (EvalValue D)} {x2 : Option (Option (EvalValue D))} :
    ¬ u.Moved op (some v) none c2 x2 := by
  cases hd : deciding op with
  | none => simp [decided_strict hd] at h
  | some d => simp [Moved,hd,logicMoved]

section

variable (hu : u.Operators) (hop : splits op)

include hu hop in
theorem combine_value_tree_iff {v1 : EvalValue D} {t2 : Expr D}
    {p2 : Option (OpKind × EvalValue D)} (h1 : u.Settled (.value v1))
    (h2 : u.Settled (.tree t2 p2)) :
    u.value s (combine u.oldSemantics op (.value v1) (.tree t2 p2)).toExpr =
        u.apply op (some v1) (u.value s (withPending t2 p2)) ↔
      ¬ u.Misplaces s op (.value v1) (.tree t2 p2) := by
  simp only [combine,dontCare_left]
  cases hdec : u.decided op v1 with
  | some b =>
    have happly (x : Option (EvalValue D)) : u.apply op (some v1) x = some (.boolean b) := by
      simp [apply,hdec]
    refine iff_of_true ((value_literalOf rfl).trans (happly _).symm) ?_
    rcases p2 with _ | ⟨op₂,v2⟩
    · exact id
    · rintro ⟨-,hmoved⟩
      exact not_moved_of_decided hdec hmoved
  | none =>
    have hund1 := (decided_eq_none_iff v1).mp hdec
    rcases p2 with _ | ⟨op₂,v2⟩
    · exact iff_of_true (value_pending h1) id
    · obtain ⟨hv2,hund2⟩ := h2.2 op₂ v2 rfl
      dsimp only
      by_cases heq : op₂ = op
      · subst heq
        rw [if_pos rfl,Flat.toExpr,value_pending (simpleOr_compute h1 hv2 _ rfl),
          value_pending hv2,eq_comm,
          right_iff hop h1 hv2 (isSimple_value hu s h2.1) hund1 hund2]
        simp [Misplaces]
      · rw [if_neg heq]
        refine iff_of_true ?_ (by simp [Misplaces,heq])
        rw [Flat.toExpr,withPending,value_op2,value_literalOf h1]

include hu hop in
theorem combine_tree_value_iff {t1 : Expr D} {p1 : Option (OpKind × EvalValue D)}
    {v2 : EvalValue D} (h1 : u.Settled (.tree t1 p1)) (h2 : u.Settled (.value v2)) :
    u.value s (combine u.oldSemantics op (.tree t1 p1) (.value v2)).toExpr =
        u.apply op (u.value s (withPending t1 p1)) (some v2) ↔
      ¬ u.Misplaces s op (.tree t1 p1) (.value v2) := by
  have hx1 : SimpleOr (u.value s t1) := isSimple_value hu s h1.1
  simp only [combine,dontCare_right,Misplaces]
  cases hdec : u.decided op v2 with
  | some b =>
    simp only [isSome_some,if_true]
    rw [Flat.toExpr,value_literalOf rfl]
    exact apply_decided_iff hdec
  | none =>
    have hund2 := (decided_eq_none_iff v2).mp hdec
    rw [if_neg (by simp)]
    rcases p1 with _ | ⟨op₁,v1⟩
    · dsimp only
      rw [Flat.toExpr,value_pending h2,eq_comm]
      exact swap_iff hop h2 hx1 hund2
    · obtain ⟨hv1,hund1⟩ := h1.2 op₁ v1 rfl
      dsimp only
      by_cases heq : op₁ = op
      · subst heq
        rw [if_pos rfl,Flat.toExpr,value_pending (simpleOr_compute hv1 h2 _ rfl),
          value_pending hv1,eq_comm,left_iff hop hv1 h2 hx1 hund1 hund2]
        simp
      · rw [if_neg heq]
        refine iff_of_true ?_ (by simp [heq])
        rw [Flat.toExpr,withPending,value_op2,value_literalOf h2]

include hu hop in
theorem combine_tree_tree_iff {t1 t2 : Expr D} {p1 p2 : Option (OpKind × EvalValue D)}
    (h1 : u.Settled (.tree t1 p1)) (h2 : u.Settled (.tree t2 p2))
    (hdrop : ∀ op₁ op₂, (Flat.tree t1 p1).pending = some op₁ →
      (Flat.tree t2 p2).pending = some op₂ → op₁ ≠ op₂ → op₁ ≠ op ∧ op₂ ≠ op) :
    u.value s (combine u.oldSemantics op (.tree t1 p1) (.tree t2 p2)).toExpr =
        u.apply op (u.value s (withPending t1 p1)) (u.value s (withPending t2 p2)) ↔
      ¬ u.Misplaces s op (.tree t1 p1) (.tree t2 p2) := by
  have hx1 : SimpleOr (u.value s t1) := isSimple_value hu s h1.1
  have hx2 : SimpleOr (u.value s t2) := isSimple_value hu s h2.1
  rcases p1 with _ | ⟨op₁,v1⟩
  · rcases p2 with _ | ⟨op₂,v2⟩
    · exact iff_of_true (value_op2 u s op t1 t2) id
    · obtain ⟨hv2,hund2⟩ := h2.2 op₂ v2 rfl
      simp only [combine,Misplaces]
      by_cases heq : op₂ = op
      · subst heq
        rw [if_pos rfl,Flat.toExpr,value_pending hv2,value_pending hv2,value_op2,eq_comm]
        simpa [withPending] using second_iff hop hv2 hx1 hx2 hund2
      · rw [if_neg heq]
        exact iff_of_true (value_op2 u s op t1 _) (by simp [heq])
  · obtain ⟨hv1,hund1⟩ := h1.2 op₁ v1 rfl
    rcases p2 with _ | ⟨op₂,v2⟩
    · simp only [combine,Misplaces]
      by_cases heq : op₁ = op
      · subst heq
        rw [if_pos rfl,Flat.toExpr,value_pending hv1,value_pending hv1,value_op2,eq_comm]
        simpa [withPending] using first_iff hop hv1 hx1 hx2 hund1
      · rw [if_neg heq]
        exact iff_of_true (value_op2 u s op _ t2) (by simp [heq])
    · obtain ⟨hv2,hund2⟩ := h2.2 op₂ v2 rfl
      simp only [combine,Misplaces]
      by_cases hsame : op₁ = op₂
      · subst hsame
        by_cases heq : op₁ = op
        · subst heq
          rw [if_pos ⟨rfl,rfl⟩,Flat.toExpr,value_pending (simpleOr_compute hv1 hv2 _ rfl),
            value_pending hv1,value_pending hv2,value_op2,eq_comm]
          simpa using regroup_iff hop hv1 hv2 hx1 hx2 hund1 hund2
        · rw [if_neg (fun h => heq h.1),if_neg heq,if_neg heq]
          exact iff_of_true (value_op2 u s op _ _) (by simp [heq])
      · obtain ⟨hne1,hne2⟩ := hdrop op₁ op₂ rfl rfl hsame
        rw [if_neg (fun h => hne1 h.1),if_neg hne1,if_neg hne2]
        exact iff_of_true (value_op2 u s op _ _) (by simp [hne1])

include hu hop in
theorem combine_iff (h1 : u.Settled f1) (h2 : u.Settled f2) (hf1 : f1 ≠ .fail)
    (hf2 : f2 ≠ .fail)
    (hdrop : ∀ op₁ op₂, f1.pending = some op₁ → f2.pending = some op₂ → op₁ ≠ op₂ →
      op₁ ≠ op ∧ op₂ ≠ op) :
    u.value s (combine u.oldSemantics op f1 f2).toExpr =
        u.apply op (u.value s f1.toExpr) (u.value s f2.toExpr) ↔ ¬ u.Misplaces s op f1 f2 := by
  cases f1 with
  | fail => exact absurd rfl hf1
  | value v1 =>
    cases f2 with
    | fail => exact absurd rfl hf2
    | value v2 =>
      simp only [combine,Flat.toExpr,Misplaces]
      rw [value_literalOf (simpleOr_compute h1 h2 _ rfl),value_literalOf h1,value_literalOf h2]
      exact compute_decided_iff v1 v2
    | tree t2 p2 =>
      rw [Flat.toExpr.eq_2,value_literalOf h1]
      exact combine_value_tree_iff hu hop h1 h2
  | tree t1 p1 =>
    cases f2 with
    | fail => exact absurd rfl hf2
    | value v2 =>
      rw [Flat.toExpr.eq_2,value_literalOf h2]
      exact combine_tree_value_iff hu hop h1 h2
    | tree t2 p2 => exact combine_tree_tree_iff hu hop h1 h2 hdrop

omit [Doubles D] in
theorem deciding_of_not_splits (h : splits op = false) : deciding op = none := by
  cases op <;> first | rfl | cases h

omit hu hop in
theorem value_keep (hop : splits op = false) (h1 : u.Settled f1)
    (h2 : u.Settled f2) (hf1 : f1 ≠ .fail) (hf2 : f2 ≠ .fail) :
    u.value s (keep u.oldSemantics op f1 f2).toExpr =
      u.apply op (u.value s f1.toExpr) (u.value s f2.toExpr) := by
  have hd := deciding_of_not_splits hop
  cases f1 with
  | fail => exact absurd rfl hf1
  | value v1 =>
    cases f2 with
    | fail => exact absurd rfl hf2
    | value v2 =>
      simp only [keep,Flat.toExpr]
      rw [value_literalOf (simpleOr_compute h1 h2 _ rfl),value_literalOf h1,value_literalOf h2]
      simp [apply,decided_strict hd]
    | tree t2 p2 => exact value_op2 u s op _ _
  | tree t1 p1 =>
    cases f2 with
    | fail => exact absurd rfl hf2
    | value | tree => exact value_op2 u s op _ _

end

def Keeps (u u' : Universe D) (s : EvalState) (e : Expr D) : Prop :=
  u.flatten s e ≠ .fail → u'.value s (u.flatten s e).toExpr = u'.value s e

theorem Settled.extend (hext : u.Extends u') (h : u.Settled f) : u'.Settled f := by
  cases f with
  | fail => trivial
  | value v => exact h
  | tree t p => simpa only [Settled,Undecided,hext.oldSemantics] using h

theorem keepsMeaning_iff (hu : u.Operators) (hu' : u'.Operators) (s : EvalState)
    (he : e.Operators) : u.KeepsMeaning u' s e ↔ u.Keeps u' s e := by
  have hsettled := settled_flatten hu s he
  unfold KeepsMeaning Keeps
  cases hf : u.flatten s e with
  | fail => simp
  | value v =>
    rw [hf] at hsettled
    rw [Flat.toExpr,value_literalOf hsettled]
    simp [evaluates_iff hu' s he,eq_comm]
  | tree t p =>
    rw [hf] at hsettled
    have ht : (withPending t p).Operators := operators_toExpr hsettled
    simp only [evaluates_iff hu' s he,evaluates_iff hu' s ht]
    constructor
    · intro h _
      exact Option.ext h
    · intro h v
      rw [← h (by simp)]
      rfl

private theorem combine_ne_fail (h1 : f1 ≠ .fail) (h2 : f2 ≠ .fail) :
    combine u.oldSemantics op f1 f2 ≠ .fail := by
  cases f1 with
  | fail => exact absurd rfl h1
  | value v1 =>
    cases f2 with
    | fail => exact absurd rfl h2
    | value v2 => simp [combine]
    | tree t2 p2 =>
      simp only [combine]
      split
      · simp
      · simp
      · split <;> simp
  | tree t1 p1 =>
    cases f2 with
    | fail => exact absurd rfl h2
    | value v2 =>
      simp only [combine]
      split
      · simp
      · simp
      · split <;> simp
    | tree t2 p2 =>
      simp only [combine]
      split
      · simp
      · split <;> simp
      · split <;> simp
      · repeat' split
        all_goals simp

section

variable (hu : u.Operators) (hu' : u'.Operators) (hext : u.Extends u')

include hu hu' hext in
theorem keeps_op2_iff {t1 t2 : Expr D} (ht1 : t1.Operators) (ht2 : t2.Operators)
    (h1 : u.Keeps u' s t1) (h2 : u.Keeps u' s t2) (hdrop : ¬ u.DropsPending s (.op2 op t1 t2)) :
    u.Keeps u' s (.op2 op t1 t2) ↔ ¬ u.Spoils u' s (.op2 op t1 t2) := by
  have hs1 := (settled_flatten hu s ht1).extend hext
  have hs2 := (settled_flatten hu s ht2).extend hext
  unfold Keeps at h1 h2 ⊢
  rw [flatten_op2,value_op2,← hext.oldSemantics]
  simp only [Spoils,DropsPending] at hdrop ⊢
  generalize u.flatten s t1 = f1 at *
  generalize u.flatten s t2 = f2 at *
  by_cases hf1 : f1 = .fail
  · subst hf1
    refine iff_of_true ?_ (fun h => h.2)
    intro h
    exact absurd (by simp [combine,keep]) h
  by_cases hf2 : f2 = .fail
  · subst hf2
    refine iff_of_true ?_ ?_
    · intro h
      exact absurd (by cases f1 <;> simp [combine,keep]) h
    · cases f1 <;> exact fun h => h.2
  rw [← h1 hf1,← h2 hf2]
  by_cases hop : splits op
  · simp only [hop,if_true,true_and] at hdrop ⊢
    have hne : combine u'.oldSemantics op f1 f2 ≠ .fail := combine_ne_fail hf1 hf2
    rw [← combine_iff hu' hop hs1 hs2 hf1 hf2]
    · exact ⟨fun h => h hne,fun h _ => h⟩
    · intro op₁ op₂ hp1 hp2 hdiff
      constructor
      · intro heq
        exact hdrop ⟨op₁,op₂,hp1,hp2,hdiff,.inl heq⟩
      · intro heq
        exact hdrop ⟨op₁,op₂,hp1,hp2,hdiff,.inr heq⟩
  · rw [if_neg hop]
    refine iff_of_true ?_ (fun h => hop h.1)
    intro _
    exact value_keep (by simpa using hop) hs1 hs2 hf1 hf2

include hext in
private theorem keeps_op1 {t : Expr D} (ht : u.Settled (u.flatten s t)) (h : u.Keeps u' s t) :
    u.Keeps u' s (.op1 op t) := by
  have hs := ht.extend hext
  unfold Keeps at h ⊢
  rw [flatten_op1,value_op1,← hext.oldSemantics]
  generalize u.flatten s t = f at *
  intro hf
  cases f with
  | fail => exact absurd rfl hf
  | value v =>
    rw [← h (by simp),keepUnary,Flat.toExpr,Flat.toExpr,value_literalOf hs,value_literalOf]
    · rfl
    · exact isSimple_compute _ _ (List.forall_mem_singleton.mpr hs)
  | tree t1 p =>
    rw [← h (by simp)]
    exact value_op1 u' s op _

private theorem compute_ternary (hundef : v ≠ .undefined)
    (hbool : v.isBooleanValueEquiv u.oldSemantics = none) (w x : EvalValue D) :
    compute u.oldSemantics .ternary [v,w,x] = .error := by
  simp only [compute,doOperation,isStrictOperator,opClass,Bool.false_eq_true,if_false,
    getD_cons_zero,hbool]
  rfl

theorem value_selector_iff {t1 t2 t3 : Expr D} (hv : u.value s t1 = some v)
    (hundef : v ≠ .undefined) (hbool : ∀ b, v ≠ .boolean b) :
    some .error = u.value s (.op3 .ternary t1 t2 t3) ↔ ¬ u.Misreads s v t2 t3 := by
  rw [value_op3,hv,bind_some]
  simp only [Misreads,hundef,hbool,ne_eq,not_false_eq_true,implies_true,true_and]
  cases hsel : v.isBooleanValueEquiv u.oldSemantics with
  | some b => cases b <;> simp [eq_comm]
  | none =>
    simp only [compute_ternary hundef hsel]
    cases u.value s t2 <;> cases u.value s t3 <;> simp

omit [Doubles D] in
theorem value_keepArms (hf : keepArms .ternary sel f2 f3 ≠ .fail) :
    f2 ≠ .fail ∧ f3 ≠ .fail ∧ (keepArms .ternary sel f2 f3).toExpr =
      .op3 .ternary sel f2.toExpr f3.toExpr := by
  cases f2 with
  | fail => exact absurd rfl hf
  | value | tree =>
    cases f3 with
    | fail => exact absurd rfl hf
    | _ => exact ⟨by simp,by simp,rfl⟩

omit [Doubles D] in
theorem conditional_error (hundef : v ≠ .undefined) (hbool : ∀ b, v ≠ .boolean b) :
    conditional op sel (.value v) f2 f3 = .value .error := by
  cases v with
  | list | classAd => rfl
  | scalar c =>
    cases c with
    | undefined => exact absurd rfl hundef
    | boolean b => exact absurd rfl (hbool b)
    | _ => rfl

omit [Doubles D] in
theorem folded_toExpr (f : Flat D) : f.folded.toExpr = f.toExpr := by
  cases f <;> rfl

omit [Doubles D] in
theorem folded_eq_fail : f.folded = .fail ↔ f = .fail := by
  cases f <;> simp [Flat.folded]

include hu hext in
theorem keeps_op3_iff {t1 t2 t3 : Expr D} (ht1 : t1.Operators) (h1 : u.Keeps u' s t1)
    (h2 : u.flatten s t1 ≠ .value (.boolean false) → u.Keeps u' s t2)
    (h3 : u.flatten s t1 ≠ .value (.boolean true) → u.Keeps u' s t3) :
    u.Keeps u' s (.op3 .ternary t1 t2 t3) ↔ ¬ u.Spoils u' s (.op3 .ternary t1 t2 t3) := by
  have hs1 := (settled_flatten hu s ht1).extend hext
  have harms (sel : Expr D) (hsel : u'.value s sel = u'.value s t1)
      (hne : ∀ b, u.flatten s t1 ≠ .value (.boolean b))
      (hf : keepArms .ternary sel (u.flatten s t2) (u.flatten s t3) ≠ .fail) :
      u'.value s (keepArms .ternary sel (u.flatten s t2) (u.flatten s t3)).toExpr =
        u'.value s (.op3 .ternary t1 t2 t3) := by
    obtain ⟨hf2,hf3,heq⟩ := value_keepArms hf
    rw [heq,value_op3,value_op3,hsel,h2 (hne false) hf2,h3 (hne true) hf3]
  unfold Keeps at h1 ⊢
  rw [flatten_op3]
  simp only [Spoils]
  cases hf : u.flatten s t1 with
  | fail => exact iff_of_true (fun h => absurd rfl h) (by simp)
  | tree t p =>
    refine iff_of_true ?_ (by simp)
    rw [hf] at h1
    exact harms _ (h1 (by simp)) (by simp [hf])
  | value v =>
    rw [hf] at h1 hs1
    have hval : u'.value s t1 = some v := by
      rw [← h1 (by simp),Flat.toExpr,value_literalOf hs1]
    by_cases hundef : v = .undefined
    · subst hundef
      refine iff_of_true ?_ (by simp [Misreads])
      exact harms t1 rfl (by simp [hf])
    by_cases hbool : ∃ b, v = .boolean b
    · obtain ⟨b,rfl⟩ := hbool
      refine iff_of_true ?_ (by simp [Misreads])
      intro hfail
      rw [value_op3,hval]
      cases b with
      | true =>
        simp only [conditional,if_true,folded_toExpr,ne_eq,folded_eq_fail] at hfail ⊢
        exact h2 (by simp [hf]) hfail
      | false =>
        simp only [conditional,Bool.false_eq_true,if_false,folded_toExpr,ne_eq,
          folded_eq_fail] at hfail ⊢
        exact h3 (by simp [hf]) hfail
    · have hbool : ∀ b, v ≠ .boolean b := fun b h => hbool ⟨b,h⟩
      rw [conditional_error hundef hbool,Flat.toExpr,value_literalOf rfl,
        value_selector_iff hval hundef hbool]
      simp

include hu hext in
private theorem keeps_attrRef {attr : Name} {absolute : Bool} (hname : isReserved attr = false)
    (h : ∀ e ad v, u.findAttr s attr absolute = .ok e ad → s.depthRemaining ≠ 0 →
      u.flatten { s with curAd := some ad, depthRemaining := s.depthRemaining - 1 } e = .value v →
      u.Keeps u' { s with curAd := some ad, depthRemaining := s.depthRemaining - 1 } e) :
    u.Keeps u' s (.attrRef attr absolute) := by
  unfold Keeps at h ⊢
  intro hf
  rw [flatten_attrRef] at hf ⊢
  cases hfound : u.findAttr s attr absolute with
  | fail =>
    rw [hfound] at hf
    exact absurd rfl hf
  | undefined => rfl
  | ok e ad =>
    have hfound' : u'.findAttr s attr absolute = .ok e ad := by
      rw [hext.findAttr s attr absolute (by simp [hfound]),hfound]
    simp only [hfound] at hf ⊢
    by_cases hd : s.depthRemaining = 0
    · simp [hd] at hf
    · simp only [if_neg hd] at hf ⊢
      have hkeeps := h e ad
      cases hflat : u.flatten
          { s with curAd := some ad, depthRemaining := s.depthRemaining - 1 } e with
      | fail =>
        rw [hflat] at hf
        exact absurd rfl hf
      | tree t p => rfl
      | value v =>
        have hv := hkeeps v hfound hd hflat (by simp [hflat])
        have hsettled := settled_flatten hu
          { s with curAd := some ad, depthRemaining := s.depthRemaining - 1 }
          (operators_findAttr hu hname hfound)
        rw [hflat] at hv hsettled
        rw [Flat.toExpr,value_literalOf hsettled] at hv
        rw [value_attrRef,hfound']
        simp only [if_neg hd]
        rw [← hv]
        exact value_literalOf hsettled

include hu hu' hext in
theorem keeps_iff (he : e.Operators)
    (hparts : ∀ s1 e1, u.Operand s e s1 e1 → u.Keeps u' s1 e1) (hdrop : ¬ u.DropsPending s e) :
    u.Keeps u' s e ↔ ¬ u.Spoils u' s e := by
  cases he with
  | @literal c hc =>
    refine iff_of_true ?_ id
    intro _
    rw [flatten_literal,value_literal]
    apply value_literalOf
    cases c <;> cases hc <;> rfl
  | attrRef hname =>
    refine iff_of_true ?_ id
    apply keeps_attrRef hu hext hname
    intro e ad v hfound hd hv
    exact hparts _ _ (.target hfound hd hv)
  | @op1 op t ht =>
    refine iff_of_true ?_ id
    exact keeps_op1 hext (settled_flatten hu s ht) (hparts _ _ .unary)
  | op2 ht1 ht2 =>
    exact keeps_op2_iff hu hu' hext ht1 ht2 (hparts _ _ .left) (hparts _ _ .right) hdrop
  | op3 ht1 ht2 ht3 =>
    apply keeps_op3_iff hu hext ht1 (hparts _ _ .selector)
    · exact fun hsel => hparts _ _ (.whenTrue hsel)
    · exact fun hsel => hparts _ _ (.whenFalse hsel)

end

private theorem Operand.operators (hu : u.Operators) {s1 : EvalState} {e e1 : Expr D}
    (h : u.Operand s e s1 e1) (he : e.Operators) : e1.Operators := by
  cases h with
  | target hfound => cases he with | attrRef hname => exact operators_findAttr hu hname hfound
  | unary => cases he with | op1 ht => exact ht
  | left => cases he with | op2 ht1 ht2 => exact ht1
  | right => cases he with | op2 ht1 ht2 => exact ht2
  | selector => cases he with | op3 ht1 ht2 ht3 => exact ht1
  | whenTrue => cases he with | op3 ht1 ht2 ht3 => exact ht2
  | whenFalse => cases he with | op3 ht1 ht2 ht3 => exact ht3

private theorem FlatPart.operators (hu : u.Operators) {s' : EvalState} {e e' : Expr D}
    (h : u.FlatPart s e s' e') (he : e.Operators) : e'.Operators := by
  induction h with
  | refl => exact he
  | step h _ ih => exact ih (h.operators hu he)

theorem FlatPart.trans {s' s'' : EvalState} {e e' e'' : Expr D} (h : u.FlatPart s e s' e')
    (h' : u.FlatPart s' e' s'' e'') : u.FlatPart s e s'' e'' := by
  induction h with
  | refl => exact h'
  | step h _ ih => exact .step h (ih h')

theorem FlatPart.operand {s1 : EvalState} {e e1 : Expr D} (h : u.Operand s e s1 e1) :
    u.FlatPart s e s1 e1 :=
  .step h (.refl s1 e1)

private theorem keeps_of_unspoiled (hu : u.Operators) (hu' : u'.Operators) (hext : u.Extends u')
    (s : EvalState) (he : e.Operators)
    (h : ∀ s' e', u.FlatPart s e s' e' → ¬ u.DropsPending s' e' ∧ ¬ u.Spoils u' s' e') :
    u.Keeps u' s e := by
  have hnode {s : EvalState} {e : Expr D} (he : e.Operators)
      (h : ∀ s' e', u.FlatPart s e s' e' → ¬ u.DropsPending s' e' ∧ ¬ u.Spoils u' s' e')
      (hparts : ∀ s1 e1, u.Operand s e s1 e1 → u.Keeps u' s1 e1) : u.Keeps u' s e :=
    (keeps_iff hu hu' hext he hparts (h s e (.refl s e)).1).mpr (h s e (.refl s e)).2
  revert h
  refine operators_induct (motive := fun s e =>
    (∀ s' e', u.FlatPart s e s' e' → ¬ u.DropsPending s' e' ∧ ¬ u.Spoils u' s' e') →
      u.Keeps u' s e) u ?literal ?attrRef ?op1 ?op2 ?op3 s he
  case literal =>
    intro s c hc h
    apply hnode (.literal hc) h
    rintro s1 e1 ⟨⟩
  case attrRef =>
    intro s attr absolute hname ih h
    apply hnode (.attrRef hname) h
    intro s1 e1 hop
    cases hop with
    | target hfound hd hv =>
      apply ih _ _ hfound hd (operators_findAttr hu hname hfound)
      exact fun s' e' hp => h s' e' (.step (.target hfound hd hv) hp)
  case op1 =>
    intro s op t ht ih h
    apply hnode (.op1 ht) h
    intro s1 e1 hop
    cases hop with
    | unary => exact ih fun s' e' hp => h s' e' (.step .unary hp)
  case op2 =>
    intro s op t1 t2 ht1 ht2 ih1 ih2 h
    apply hnode (.op2 ht1 ht2) h
    intro s1 e1 hop
    cases hop with
    | left => exact ih1 fun s' e' hp => h s' e' (.step .left hp)
    | right => exact ih2 fun s' e' hp => h s' e' (.step .right hp)
  case op3 =>
    intro s t1 t2 t3 ht1 ht2 ht3 ih1 ih2 ih3 h
    apply hnode (.op3 ht1 ht2 ht3) h
    intro s1 e1 hop
    cases hop with
    | selector => exact ih1 fun s' e' hp => h s' e' (.step .selector hp)
    | whenTrue hsel => exact ih2 fun s' e' hp => h s' e' (.step (.whenTrue hsel) hp)
    | whenFalse hsel => exact ih3 fun s' e' hp => h s' e' (.step (.whenFalse hsel) hp)

/-- As long as no pending operation is dropped, flattening keeps the meaning of an expression and of
its parts if and only if none of them is spoiled. -/
theorem flatten_keepsMeaning_iff (u u' : Universe D) (hu : u.Operators) (hu' : u'.Operators)
    (hext : u.Extends u') (s : EvalState) (e : Expr D) (he : e.Operators)
    (hdrop : ∀ s' e', u.FlatPart s e s' e' → ¬ u.DropsPending s' e') :
    (∀ s' e', u.FlatPart s e s' e' → u.KeepsMeaning u' s' e') ↔
      ∀ s' e', u.FlatPart s e s' e' → ¬ u.Spoils u' s' e' := by
  constructor
  · intro h s' e' hp
    have he' := hp.operators hu he
    apply (keeps_iff hu hu' hext he' _ (hdrop s' e' hp)).mp
    · exact (keepsMeaning_iff hu hu' s' he').mp (h s' e' hp)
    · intro s1 e1 hop
      exact (keepsMeaning_iff hu hu' s1 (hop.operators hu he')).mp
        (h s1 e1 (hp.trans (.operand hop)))
  · intro h s' e' hp
    have he' := hp.operators hu he
    apply (keepsMeaning_iff hu hu' s' he').mpr
    apply keeps_of_unspoiled hu hu' hext s' he'
    exact fun s'' e'' hp' => ⟨hdrop s'' e'' (hp.trans hp'),h s'' e'' (hp.trans hp')⟩

end Universe

section

open Universe

/-- `x`. -/
def attrX : Expr Float := .attrRef ['x'] false

/-- The first ad defines `x`. -/
def definesX (c : Scalar Float) : Universe Float where
  ad id := { attrs := if id = 0 then [(['x'],.literal c .none)] else [] }
  parent_lt := by intro id p h; cases h
  newRoot := 1
  functions _ := none
  oldSemantics := true

private theorem operators_definesX {c : Scalar Float} (hc : c.isSimple) :
    (definesX c).Operators := by
  intro id a ha
  simp only [definesX] at ha
  split at ha
  · rw [List.mem_singleton.mp ha]
    exact .literal hc
  · cases ha

private theorem operators_emptyUniverse : (emptyUniverse true).Operators := by
  intro id a ha
  cases ha

private theorem lookup_definesX (c : Scalar Float) (rootAd : Option AdId) (id : AdId) {name : Name}
    (h : (emptyUniverse true).lookupInScope rootAd id name ≠ .undefined) :
    (definesX c).lookupInScope rootAd id name =
      (emptyUniverse true).lookupInScope rootAd id name := by
  have hempty : ((emptyUniverse true).ad id).lookup name = none := rfl
  have hparent : ((emptyUniverse true).ad id).parentScope = none := rfl
  have hparent' : ((definesX c).ad id).parentScope = none := rfl
  unfold Heap.lookupInScope Heap.lookupFrom at h ⊢
  rw [hempty,hparent] at h
  rw [hempty,hparent,hparent']
  cases hlookup : ((definesX c).ad id).lookup name with
  | none => rfl
  | some e =>
    have hsame : strcasecmp ['x'] name := by
      obtain ⟨a,ha,-⟩ := Option.map_eq_some_iff.mp hlookup
      have hmem := mem_of_find?_eq_some ha
      have hname := find?_some ha
      simp only [definesX] at hmem
      split at hmem
      · rw [List.mem_singleton.mp hmem] at hname
        exact hname
      · cases hmem
    have hname : name.map Char.toLower = ['x'] := (eq_of_beq hsame).symm
    simp only [strcasecmp,hname] at h
    exact absurd rfl h

private theorem extends_definesX (c : Scalar Float) : (emptyUniverse true).Extends
    (definesX c) := by
  refine ⟨rfl,?_⟩
  intro s attr absolute hfound
  simp only [Universe.findAttr] at hfound ⊢
  cases hscope : if absolute then s.rootAd else s.curAd with
  | none => rfl
  | some ad =>
    have hlookup := @lookup_definesX c s.rootAd ad attr
    simp only [hscope] at hfound ⊢
    cases hl : (emptyUniverse true).lookupInScope s.rootAd ad attr with
    | undefined =>
      rw [hl] at hfound
      exact absurd rfl hfound
    | fail | ok => rw [hlookup (by simp [hl]),hl]

/-- `x || error` becomes `error || x`, which is an error where `x` is true. -/
theorem constant_moved_before_decision :
    ¬ ∀ (u : Universe Float) (s : EvalState) (e : Expr Float), u.Operators → e.Operators →
      (∀ v, u.flatten s e = .value v → u.Evaluates s e v) ∧
      ∀ t p, u.flatten s e = .tree t p → ∀ u' : Universe Float, u'.Operators → u.Extends u' →
        ∀ v, u'.Evaluates s (withPending t p) v ↔ u'.Evaluates s e v := by
  intro hall
  have hops : (Expr.op2 .logicalOr attrX (.literal .error .none)).Operators :=
    .op2 (.attrRef (by decide)) (.literal rfl)
  have htree := (hall (emptyUniverse true) topScope _ operators_emptyUniverse hops).2
    attrX (some (.logicalOr,.error)) rfl (definesX (.boolean true)) (operators_definesX rfl)
    (extends_definesX _) (.boolean true)
  have htrue : (definesX (.boolean true)).Evaluates topScope
      (.op2 .logicalOr attrX (.literal .error .none)) (.boolean true) := ⟨3,rfl⟩
  have herror : (definesX (.boolean true)).Evaluates topScope
      (withPending attrX (some (.logicalOr,.error))) .error := ⟨3,rfl⟩
  cases (htree.mpr htrue).unique herror

/-- `1 + x`. -/
def onePlusX : Expr Float := .op2 .addition (.literal (.integer 1) .none) attrX

private theorem flatPart_onePlusX {s' : EvalState} {e' : Expr Float}
    (h : (emptyUniverse true).FlatPart topScope onePlusX s' e') :
    s' = topScope ∧ (e' = onePlusX ∨ e' = .literal (.integer 1) .none ∨ e' = attrX) := by
  cases h with
  | refl => exact ⟨rfl,.inl rfl⟩
  | step hop h =>
    cases hop with
    | left =>
      cases h with
      | refl => exact ⟨rfl,.inr (.inl rfl)⟩
      | step hop _ => cases hop
    | right =>
      cases h with
      | refl => exact ⟨rfl,.inr (.inr rfl)⟩
      | step hop _ =>
        cases hop with
        | target hfound => cases hfound

theorem flatten_keepsMeaning_iff_onePlusX :
    (emptyUniverse true).KeepsMeaning (definesX (.integer 2)) topScope onePlusX := by
  have hops : onePlusX.Operators := .op2 (.literal rfl) (.attrRef (by decide))
  refine (flatten_keepsMeaning_iff (emptyUniverse true) (definesX (.integer 2))
    operators_emptyUniverse (operators_definesX rfl) (extends_definesX _) topScope onePlusX hops
    ?_).mpr ?_ topScope onePlusX (.refl _ _)
  · intro s' e' hp
    obtain ⟨rfl,rfl | rfl | rfl⟩ := flatPart_onePlusX hp
    · rintro ⟨-,op₁,op₂,h1,-⟩
      cases h1
    · exact id
    · exact id
  · intro s' e' hp
    obtain ⟨rfl,rfl | rfl | rfl⟩ := flatPart_onePlusX hp
    · exact fun h => h.2
    · exact id
    · exact id

end

end Condor.ClassAds
