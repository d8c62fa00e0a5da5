import Mathlib.Data.List.Forall2
import Condor.ClassAds.EvaluateRuns

/-!
# Evaluation with significance

`Evaluate( state, val, sig )` evaluates all operands and all arguments before it makes the value,
while `Evaluate( state, val )` stops at an operand that decides.
-/

namespace Condor.ClassAds

open Lib List Option

variable {D : Type} [Doubles D]

namespace Universe

variable (u : Universe D)

def evaluateArgs (sig : Evaluator D) (s : EvalState) :
    Bool → List (Expr D) → Watch (Expr D) Bool
  | ok, [] => pure ok
  | _, t::ts => do
    let r ← sig s t
    evaluateArgs sig s r.1 ts

def stepSig (eval sig : Evaluator D) : Evaluator D := fun s e =>
  match e with
  | .select e attr => u.select sig eval s e attr
  | .op1 op t => u.operate sig eval s op [] [t]
  | .op2 op t1 t2 => u.operate sig eval s op [] [t1,t2]
  | .op3 op t1 t2 t3 => u.operate sig eval s op [] [t1,t2,t3]
  | .fnCall name args => do
    let r ← u.call eval s name args
    if r.1 then
      let ok ← evaluateArgs sig s true args
      return (ok,r.2)
    else return r
  | e => u.step eval s e

/-- `Evaluate( state, val, sig )`. -/
def evaluateSig : Nat → Evaluator D
  | 0 => fun _ _ => Watch.exhausted
  | n + 1 => u.stepSig (u.evaluate n) (evaluateSig n)

def Evaluates (s : EvalState) (e : Expr D) (v : EvalValue D) : Prop :=
  ∃ n, (u.evaluate n s e).value = some (true,v)

def EvaluatesSig (s : EvalState) (e : Expr D) (v : EvalValue D) : Prop :=
  ∃ n, (u.evaluateSig n s e).value = some (true,v)

end Universe

def Expr.children {D : Type} : Expr D → List (Expr D)
  | .select e _ => [e]
  | .op1 _ t => [t]
  | .op2 _ t1 t2 => [t1,t2]
  | .op3 _ t1 t2 t3 => [t1,t2,t3]
  | .fnCall _ args => args
  | _ => []

namespace Universe

variable (u : Universe D)

/-- The subexpressions of an expression in a scope, and the selections from elements of a list
that evaluating them leads to. -/
inductive Part : EvalState → Expr D → EvalState → Expr D → Prop
  | refl (s : EvalState) (e : Expr D) : Part s e s e
  | child {s s' : EvalState} {e t e' : Expr D} (ht : t ∈ e.children) (h : Part s t s' e') :
    Part s e s' e'
  | element {s s' : EvalState} {e x e' : Expr D} {attr : Name} {es : List (Expr D)}
    {scope : Option AdId} (he : u.Evaluates s e (.list es scope)) (hx : x ∈ es)
    (h : Part (u.setScopes s.curAd) (.select x attr) s' e') : Part s (.select e attr) s' e'

/-- The expression evaluates successfully, with and without significance. -/
def Succeeds (s : EvalState) (e : Expr D) : Prop :=
  (∃ v, u.Evaluates s e v) ∧ ∃ v, u.EvaluatesSig s e v

/-- A `||` or `&&` of which the first operand decides, while the second has a type that these
operators do not take. -/
def Overruled (s : EvalState) (e : Expr D) : Prop :=
  ∃ op t1 t2 v1 v2, e = .op2 op t1 t2 ∧ u.Evaluates s t1 v1 ∧ (u.decided op v1).isSome ∧
    u.Evaluates s t2 v2 ∧ Operation.truth u.oldSemantics v2 = .other

variable {u} {s : EvalState} {e : Expr D}

variable {v : EvalValue D}

theorem Evaluates.yields (h : u.Evaluates s e v) :
    Watch.Yields (fun k => u.evaluate k s e) (true,v) := by
  obtain ⟨n,hn⟩ := h
  exact ⟨n,fun k hk => u.evaluate_of_le hn hk⟩

private theorem evaluates_of_step
    (h : Watch.Yields (fun k => u.step (u.evaluate k) s e) (true,v)) : u.Evaluates s e v := by
  obtain ⟨n,hn⟩ := h
  exact ⟨n + 1,hn n (Nat.le_refl n)⟩

theorem Evaluates.unique {v w : EvalValue D} (hv : u.Evaluates s e v) (hw : u.Evaluates s e w) :
    v = w :=
  congrArg Prod.snd (hv.yields.unique hw.yields)

omit [Doubles D] in
theorem eq_true_of_ite {α : Type} {c : Bool} {x y : Watch (Expr D) α} {a : α}
    (hy : y.value ≠ some a) (h : (if c = true then x else y).value = some a) :
    c = true ∧ x.value = some a := by
  cases c with
  | true => exact ⟨rfl,h⟩
  | false => exact absurd h hy

omit [Doubles D] in
theorem failWith_ne (v w : EvalValue D) : (failWith v).value ≠ some (true,w) := by
  simp [failWith,Watch.pure_def]

variable {ts : List (Expr D)} {vs : List (EvalValue D)}

omit [Doubles D] in
theorem operands_cons {self : Evaluator D} {t : Expr D}
    (h : (operands self s (t::ts)).value = some (some vs)) :
    ∃ v ws, (self s t).value = some (true,v) ∧ (operands self s ts).value = some (some ws) ∧
      vs = v::ws := by
  obtain ⟨⟨ok,v⟩,hr,h⟩ := Watch.eq_some_of_bind h
  obtain ⟨rfl,h⟩ := eq_true_of_ite (by simp [Watch.pure_def]) h
  obtain ⟨ws,hws,h⟩ := Watch.eq_some_of_bind h
  simp only [Watch.pure_def,some.injEq] at h
  obtain ⟨ws',rfl,rfl⟩ := Option.map_eq_some_iff.mp h
  exact ⟨v,ws',hr,hws,rfl⟩

variable {op : OpKind}

private theorem operate_inv {self eval : Evaluator D}
    (h : (u.operate self eval s op vs ts).value = some (true,v)) :
    ∃ ws, (operands self s ts).value = some (some ws) ∧
      (Operation.doOperation u.oldSemantics op (vs ++ ws) (u.subscript eval s)).value = some v := by
  obtain ⟨ws,hws,h⟩ := Watch.eq_some_of_bind h
  cases ws with
  | none => exact absurd h (failWith_ne _ _)
  | some ws =>
    obtain ⟨w,hw,h⟩ := Watch.eq_some_of_bind h
    simp only [succeed,Watch.pure_def,some.injEq,Prod.mk.injEq,true_and] at h
    exact ⟨ws,hws,h ▸ hw⟩

private theorem operands_yields (h : List.Forall₂ (u.Evaluates s) ts vs) :
    Watch.Yields (fun k => operands (u.evaluate k) s ts) (some vs) := by
  induction h with
  | nil => exact Watch.Yields.const rfl
  | cons ht _ ih =>
    refine Watch.Yields.bind ht.yields ?_
    exact Watch.Yields.bind ih (Watch.Yields.const rfl)

variable {n : Nat}

private theorem operate_yields {vs ws : List (EvalValue D)}
    (hts : List.Forall₂ (u.Evaluates s) ts ws)
    (h : (Operation.doOperation u.oldSemantics op (vs ++ ws)
      (u.subscript (u.evaluate n) s)).value = some v) :
    Watch.Yields (fun k => u.operate (u.evaluate k) (u.evaluate k) s op vs ts) (true,v) := by
  refine Watch.Yields.bind (operands_yields hts) ?_
  refine Watch.Yields.bind ?_ (Watch.Yields.const rfl)
  refine Watch.Yields.of_below ?_ h
  intro k hk
  exact u.doOperation_below (u.evaluate_below hk) s op (vs ++ ws)

private theorem decided_cases {b : Bool} (h : u.decided op v = some b) :
    op = (if b then .logicalOr else .logicalAnd) ∧
      Operation.truth u.oldSemantics v = .value b := by
  unfold decided at h
  split at h
  · rename_i hv
    cases h
    exact ⟨rfl,by simp [Operation.truth,hv]⟩
  · rename_i hv
    cases h
    exact ⟨rfl,by simp [Operation.truth,hv]⟩
  · cases h

private theorem doOperation_decided {m : Type → Type} [Monad m] {v w : EvalValue D}
    {b : Bool} (hb : u.decided op v = some b) (f : EvalValue D → EvalValue D → m (EvalValue D)) :
    Operation.doOperation u.oldSemantics op [v,w] f =
      pure (if Operation.truth u.oldSemantics w = .other then .error else .boolean b) := by
  obtain ⟨rfl,hv⟩ := decided_cases hb
  cases b <;> cases hw : Operation.truth u.oldSemantics w <;>
    simp [Operation.doOperation,Operation.isStrictOperator,Operation.opClass,
      Operation.doLogical,hv,hw]

private theorem doOperation_chosen {m : Type → Type} [Monad m] {v w x : EvalValue D}
    {t t2 t3 : Expr D} (h : u.chosen op v t2 t3 = some t)
    (f : EvalValue D → EvalValue D → m (EvalValue D)) :
    (t = t2 ∧ Operation.doOperation u.oldSemantics op [v,w,x] f = pure w) ∨
      (t = t3 ∧ Operation.doOperation u.oldSemantics op [v,w,x] f = pure x) := by
  unfold chosen at h
  split at h
  · rename_i hop
    subst hop
    obtain ⟨b,hb,rfl⟩ := Option.map_eq_some_iff.mp h
    have hop : Operation.doOperation u.oldSemantics .ternary [v,w,x] f =
        pure (if b then w else x) := by
      simp only [Operation.doOperation,Operation.isStrictOperator,Operation.opClass]
      simp only [Bool.false_eq_true,if_false,getD_cons_zero]
      split
      · simp [EvalValue.isBooleanValueEquiv] at hb
      · simp only [hb]
        cases b <;> rfl
    cases b with
    | true => exact .inl ⟨rfl,hop⟩
    | false => exact .inr ⟨rfl,hop⟩
  · cases h

theorem Part.trans {s s' s'' : EvalState} {e e' e'' : Expr D} (h : u.Part s e s' e')
    (h' : u.Part s' e' s'' e'') : u.Part s e s'' e'' := by
  induction h with
  | refl => exact h'
  | child ht _ ih => exact .child ht (ih h')
  | element he hx _ ih => exact .element he hx (ih h')

structure Plain (u : Universe D) (s : EvalState) (e : Expr D) : Prop where
  succeeds : ∀ s' e', u.Part s e s' e' → u.Succeeds s' e'
  not_overruled : ∀ s' e', u.Part s e s' e' → ¬ u.Overruled s' e'

theorem Plain.part {s' : EvalState} {e' : Expr D} (h : Plain u s e) (hp : u.Part s e s' e') :
    Plain u s' e' where
  succeeds := fun _ _ h' => h.succeeds _ _ (hp.trans h')
  not_overruled := fun _ _ h' => h.not_overruled _ _ (hp.trans h')

theorem Plain.child {t : Expr D} (h : Plain u s e) (ht : t ∈ e.children) : Plain u s t :=
  h.part (.child ht (.refl _ _))

/-- The evaluation with significance and the fuel `n` has values that plain evaluation has. -/
def AgreesUpTo (u : Universe D) (n : Nat) : Prop :=
  ∀ s e v, Plain u s e → (u.evaluateSig n s e).value = some (true,v) → u.Evaluates s e v

private theorem operands_agree (ih : AgreesUpTo u n) (hts : ∀ t ∈ ts, Plain u s t)
    (h : (operands (u.evaluateSig n) s ts).value = some (some vs)) :
    List.Forall₂ (u.Evaluates s) ts vs := by
  induction ts generalizing vs with
  | nil => cases h; exact .nil
  | cons t ts iht =>
    obtain ⟨v,ws,hv,hws,rfl⟩ := operands_cons h
    refine .cons (ih s t v (hts t (by simp)) hv) ?_
    exact iht (fun t' ht' => hts t' (by simp [ht'])) hws

private theorem operate_agree (ih : AgreesUpTo u n) (hts : ∀ t ∈ ts, Plain u s t)
    (h : (u.operate (u.evaluateSig n) (u.evaluate n) s op [] ts).value = some (true,v)) :
    ∃ vs, List.Forall₂ (u.Evaluates s) ts vs ∧
      (Operation.doOperation u.oldSemantics op vs (u.subscript (u.evaluate n) s)).value =
        some v := by
  obtain ⟨vs,hvs,hv⟩ := operate_inv h
  exact ⟨vs,operands_agree ih hts hvs,hv⟩

variable {t1 t2 : Expr D}

private theorem op2_agrees (ih : AgreesUpTo u n) (hp : Plain u s (.op2 op t1 t2))
    (h : (u.operate (u.evaluateSig n) (u.evaluate n) s op [] [t1,t2]).value = some (true,v)) :
    u.Evaluates s (.op2 op t1 t2) v := by
  obtain ⟨_,hvs,hv⟩ := operate_agree ih (fun t ht => hp.child ht) h
  obtain ⟨v1,_,h1,hvs1,rfl⟩ := List.forall₂_cons_left_iff.mp hvs
  obtain ⟨v2,_,h2,hvs2,rfl⟩ := List.forall₂_cons_left_iff.mp hvs1
  obtain rfl := List.forall₂_nil_left_iff.mp hvs2
  refine evaluates_of_step (Watch.Yields.bind h1.yields ?_)
  cases hb : u.decided op v1 with
  | none =>
    simp only [if_true]
    exact operate_yields (.cons h2 .nil) hv
  | some b =>
    simp only [if_true]
    have hother : Operation.truth u.oldSemantics v2 ≠ .other := by
      intro hother
      exact hp.not_overruled _ _ (.refl _ _) ⟨op,t1,t2,v1,v2,rfl,h1,by simp [hb],h2,hother⟩
    rw [doOperation_decided hb,if_neg hother] at hv
    cases hv
    exact Watch.Yields.const rfl

private theorem op3_agrees (ih : AgreesUpTo u n) {t1 t2 t3 : Expr D}
    (hp : Plain u s (.op3 op t1 t2 t3))
    (h : (u.operate (u.evaluateSig n) (u.evaluate n) s op [] [t1,t2,t3]).value =
      some (true,v)) : u.Evaluates s (.op3 op t1 t2 t3) v := by
  obtain ⟨_,hvs,hv⟩ := operate_agree ih (fun t ht => hp.child ht) h
  obtain ⟨v1,_,h1,hvs1,rfl⟩ := List.forall₂_cons_left_iff.mp hvs
  obtain ⟨v2,_,h2,hvs2,rfl⟩ := List.forall₂_cons_left_iff.mp hvs1
  obtain ⟨v3,_,h3,hvs3,rfl⟩ := List.forall₂_cons_left_iff.mp hvs2
  obtain rfl := List.forall₂_nil_left_iff.mp hvs3
  refine evaluates_of_step (Watch.Yields.bind h1.yields ?_)
  cases ht : u.chosen op v1 t2 t3 with
  | none =>
    simp only [if_true]
    exact operate_yields (.cons h2 (.cons h3 .nil)) hv
  | some t =>
    simp only [if_true]
    have hval : u.Evaluates s t v := by
      rcases doOperation_chosen ht (x := v3) (u.subscript (u.evaluate n) s) with
        ⟨rfl,hop⟩ | ⟨rfl,hop⟩
      · rw [hop] at hv
        cases hv
        exact h2
      · rw [hop] at hv
        cases hv
        exact h3
    exact Watch.Yields.bind hval.yields (Watch.Yields.const rfl)

private theorem selectEach_agrees (ih : AgreesUpTo u n) {attr : Name} {es : List (Expr D)}
    {made : List (Expr D)} (hes : ∀ x ∈ es, Plain u (u.setScopes s.curAd) (.select x attr))
    (h : (u.selectEach (u.evaluateSig n) s attr es).value = some (some made)) :
    Watch.Yields (fun k => u.selectEach (u.evaluate k) s attr es) (some made) := by
  induction es generalizing made with
  | nil => exact Watch.Yields.const h
  | cons x es ihes =>
    obtain ⟨⟨ok,v⟩,hv,h⟩ := Watch.eq_some_of_bind h
    obtain ⟨rfl,h⟩ := eq_true_of_ite (by simp [Watch.pure_def]) h
    obtain ⟨rest,hrest,h⟩ := Watch.eq_some_of_bind h
    simp only [Watch.pure_def,some.injEq] at h
    obtain ⟨rest,rfl,rfl⟩ := Option.map_eq_some_iff.mp h
    have hx : u.Evaluates (u.setScopes s.curAd) (.select x attr) v :=
      ih _ _ v (hes x (by simp)) hv
    have hesc : Watch.Yields (fun k => escape x (u.evaluate k (u.setScopes s.curAd)
        (.select x attr))) (true,v) := Watch.Yields.bind (Watch.Yields.const rfl) hx.yields
    refine Watch.Yields.bind hesc ?_
    refine Watch.Yields.bind (ihes (fun y hy => hes y (by simp [hy])) hrest) ?_
    exact Watch.Yields.const rfl

private theorem select_agrees (ih : AgreesUpTo u n) {attr : Name} (hp : Plain u s (.select e attr))
    (h : (u.select (u.evaluateSig n) (u.evaluate n) s e attr).value = some (true,v)) :
    u.Evaluates s (.select e attr) v := by
  obtain ⟨⟨ok,w⟩,hw,h⟩ := Watch.eq_some_of_bind h
  obtain ⟨rfl,h⟩ := eq_true_of_ite (failWith_ne _ _) h
  have he : u.Evaluates s e w := ih s e w (hp.child (by simp [Expr.children])) hw
  refine evaluates_of_step (Watch.Yields.bind he.yields ?_)
  cases w with
  | scalar c => cases c <;> exact Watch.Yields.const h
  | classAd ad =>
    exact Watch.Yields.of_below (fun k hk => evaluateFound_below (u.evaluate_below hk) s _) h
  | list es scope =>
    obtain ⟨made,hmade,h⟩ := Watch.eq_some_of_bind h
    cases made with
    | none => exact absurd h (failWith_ne _ _)
    | some made =>
      have heach := selectEach_agrees ih (fun x hx => hp.part (.element he hx (.refl _ _))) hmade
      refine Watch.Yields.bind heach ?_
      exact Watch.Yields.of_below (fun k hk => deepen_below (u.evaluate_below hk) s _) h

private theorem call_agrees {name : Name} {args : List (Expr D)}
    (h : (u.stepSig (u.evaluate n) (u.evaluateSig n) s (.fnCall name args)).value =
      some (true,v)) : u.Evaluates s (.fnCall name args) v := by
  obtain ⟨⟨ok,w⟩,hw,h⟩ := Watch.eq_some_of_bind h
  cases ok with
  | false => exact absurd h (failWith_ne w v)
  | true =>
    obtain ⟨ok,_,h⟩ := Watch.eq_some_of_bind h
    simp only [Watch.pure_def,some.injEq,Prod.mk.injEq] at h
    obtain ⟨rfl,rfl⟩ := h
    exact ⟨n + 1,hw⟩

theorem agrees (n : Nat) : AgreesUpTo u n := by
  induction n with
  | zero => intro s e v _ h; cases h
  | succ n ih =>
    intro s e v hp h
    cases e with
    | select e attr => exact select_agrees ih hp h
    | op1 op t =>
      obtain ⟨vs,hvs,hv⟩ := operate_agree ih (fun t ht => hp.child ht) h
      exact evaluates_of_step (operate_yields hvs hv)
    | op2 op t1 t2 => exact op2_agrees ih hp h
    | op3 op t1 t2 t3 => exact op3_agrees ih hp h
    | fnCall name args => exact call_agrees h
    | literal | attrRef | exprList | classAd => exact ⟨n + 1,h⟩

private theorem evaluates_decided {v1 : EvalValue D} {b : Bool}
    (h1 : u.Evaluates s t1 v1) (hb : u.decided op v1 = some b) :
    u.Evaluates s (.op2 op t1 t2) (.boolean b) := by
  refine evaluates_of_step (Watch.Yields.bind h1.yields ?_)
  simp only [if_true,hb]
  exact Watch.Yields.const rfl

private theorem evaluatesSig_op2 (h : u.EvaluatesSig s (.op2 op t1 t2) v) :
    ∃ n v1 v2, u.EvaluatesSig s t1 v1 ∧ u.EvaluatesSig s t2 v2 ∧
      (Operation.doOperation u.oldSemantics op [v1,v2]
        (u.subscript (u.evaluate n) s)).value = some v := by
  obtain ⟨n,hn⟩ := h
  cases n with
  | zero => cases hn
  | succ n =>
    obtain ⟨vs,hvs,hv⟩ := operate_inv hn
    obtain ⟨v1,ws,h1,hws,rfl⟩ := operands_cons hvs
    obtain ⟨v2,ws',h2,hnil,rfl⟩ := operands_cons hws
    cases hnil
    exact ⟨n,v1,v2,⟨n,h1⟩,⟨n,h2⟩,hv⟩

/-- Where all parts evaluate successfully, the two evaluations agree on them if and only if none is
a `||` or `&&` whose first operand decides while the second has a type that these do not take. -/
theorem agree_iff (u : Universe D) (s : EvalState) (e : Expr D)
    (h : ∀ s' e', u.Part s e s' e' → u.Succeeds s' e') :
    (∀ s' e', u.Part s e s' e' → ∀ v w, u.Evaluates s' e' v → u.EvaluatesSig s' e' w → v = w) ↔
      ∀ s' e', u.Part s e s' e' → ¬ u.Overruled s' e' := by
  constructor
  · rintro hagree s' _ hp ⟨op,t1,t2,v1,v2,rfl,h1,hdec,h2,hother⟩
    obtain ⟨b,hb⟩ := Option.isSome_iff_exists.mp hdec
    obtain ⟨_,w,hw⟩ := h _ _ hp
    obtain ⟨n,w1,w2,hw1,hw2,hop⟩ := evaluatesSig_op2 hw
    have heq1 : v1 = w1 :=
      hagree _ _ (hp.trans (.child (by simp [Expr.children]) (.refl _ _))) _ _ h1 hw1
    have heq2 : v2 = w2 :=
      hagree _ _ (hp.trans (.child (by simp [Expr.children]) (.refl _ _))) _ _ h2 hw2
    subst heq1 heq2
    rw [doOperation_decided hb,if_pos hother] at hop
    cases hop
    have hbool := hagree _ _ hp _ _ (evaluates_decided h1 hb) hw
    cases hbool
  · intro hnot s' e' hp v w hv hw
    obtain ⟨n,hn⟩ := hw
    have hplain : Plain u s e := ⟨h,hnot⟩
    exact hv.unique (agrees n s' e' w (hplain.part hp) hn)

end Universe

section

open Universe

def emptyUniverse (oldSemantics : Bool) : Universe Float where
  ad _ := { attrs := [] }
  parent_lt := by intro id p h; cases h
  newRoot := 0
  functions _ := none
  oldSemantics := oldSemantics

def topScope : EvalState := (emptyUniverse true).setScopes (some 0)

/-- `c || d` on literals. -/
def orOf (c d : Scalar Float) : Expr Float :=
  .op2 .logicalOr (.literal c .none) (.literal d .none)

private theorem part_orOf {u : Universe Float} {s s' : EvalState} {c d : Scalar Float}
    {e' : Expr Float}
    (h : u.Part s (orOf c d) s' e') :
    s' = s ∧ (e' = orOf c d ∨ e' = .literal c .none ∨ e' = .literal d .none) := by
  cases h with
  | refl => exact ⟨rfl,.inl rfl⟩
  | child ht h =>
    simp only [orOf,Expr.children,mem_cons,not_mem_nil,or_false] at ht
    rcases ht with rfl | rfl
    · cases h with
      | refl => exact ⟨rfl,.inr (.inl rfl)⟩
      | child ht _ => cases ht
    · cases h with
      | refl => exact ⟨rfl,.inr (.inr rfl)⟩
      | child ht _ => cases ht

theorem agree_iff_or :
    (∀ s' e', (emptyUniverse true).Part topScope (orOf (.boolean false) (.boolean true)) s' e' →
      ∀ v w, (emptyUniverse true).Evaluates s' e' v → (emptyUniverse true).EvaluatesSig s' e' w →
        v = w) ↔
      ∀ s' e', (emptyUniverse true).Part topScope (orOf (.boolean false) (.boolean true)) s' e' →
        ¬ (emptyUniverse true).Overruled s' e' := by
  refine agree_iff (emptyUniverse true) topScope _ ?_
  intro s' e' hp
  obtain ⟨rfl,rfl | rfl | rfl⟩ := part_orOf hp
  · exact ⟨⟨.boolean true,2,rfl⟩,⟨.boolean true,2,rfl⟩⟩
  · exact ⟨⟨.boolean false,1,rfl⟩,⟨.boolean false,1,rfl⟩⟩
  · exact ⟨⟨.boolean true,1,rfl⟩,⟨.boolean true,1,rfl⟩⟩

/-- `true || "x"` is true, and an error with significance. -/
theorem or_string_disagrees :
    ¬ ∀ (oldSemantics : Bool) (s : EvalState) (e : Expr Float),
      (∀ s' e', (emptyUniverse oldSemantics).Part s e s' e' →
        (emptyUniverse oldSemantics).Succeeds s' e') →
      ∀ v w, (emptyUniverse oldSemantics).Evaluates s e v →
        (emptyUniverse oldSemantics).EvaluatesSig s e w → v = w := by
  intro hall
  have hparts : ∀ s' e', (emptyUniverse true).Part topScope
      (orOf (.boolean true) (.string ['x'])) s' e' → (emptyUniverse true).Succeeds s' e' := by
    intro s' e' hp
    obtain ⟨rfl,rfl | rfl | rfl⟩ := part_orOf hp
    · exact ⟨⟨.boolean true,2,rfl⟩,⟨.error,2,rfl⟩⟩
    · exact ⟨⟨.boolean true,1,rfl⟩,⟨.boolean true,1,rfl⟩⟩
    · exact ⟨⟨.string ['x'],1,rfl⟩,⟨.string ['x'],1,rfl⟩⟩
  have h := hall true topScope _ hparts (.boolean true) .error ⟨2,rfl⟩ ⟨2,rfl⟩
  cases h

end

end Condor.ClassAds
