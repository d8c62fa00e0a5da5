import Condor.ClassAds.Evaluate

/-!
# Evaluation with more fuel

An evaluator that goes further than another makes every call of `_Evaluate` go further. More fuel
therefore changes nothing once it has returned.
-/

namespace Condor.ClassAds

open Lib

variable {D : Type}

def Evaluator.Below (f g : Evaluator D) : Prop := ∀ s e, Watch.Below (f s e) (g s e)

section

variable {self self' eval eval' : Evaluator D} (hself : self.Below self')
  (heval : eval.Below eval')

include heval in
theorem deepen_below (s : EvalState) (e : Expr D) :
    Watch.Below (deepen eval s e) (deepen eval' s e) := by
  unfold deepen
  split
  · exact Watch.Below.refl _
  · exact heval _ _

private theorem escape_below {α : Type} (e : Expr D) {x y : Watch (Expr D) α}
    (h : Watch.Below x y) :
    Watch.Below (escape e x) (escape e y) :=
  Watch.Below.bind (Watch.Below.refl _) fun _ => h

namespace Universe

variable (u : Universe D) (s : EvalState)

include heval in
theorem evaluateFound_below (found : Heap.Found D) :
    Watch.Below (evaluateFound eval s found) (evaluateFound eval' s found) := by
  cases found with
  | fail | undefined => exact Watch.Below.refl _
  | ok e ad => exact deepen_below heval _ e

include hself in
private theorem selectEach_below (attr : Name) (es : List (Expr D)) :
    Watch.Below (u.selectEach self s attr es) (u.selectEach self' s attr es) := by
  induction es with
  | nil => exact Watch.Below.refl _
  | cons e es ih =>
    refine Watch.Below.bind (escape_below e (hself _ _)) ?_
    intro r
    refine Watch.Below.ite ?_ (Watch.Below.refl _)
    exact Watch.Below.bind ih fun _ => Watch.Below.refl _

include hself heval in
private theorem selectFrom_below (attr : Name) (v : EvalValue D) :
    Watch.Below (u.selectFrom self eval s attr v) (u.selectFrom self' eval' s attr v) := by
  cases v with
  | scalar c => cases c <;> exact Watch.Below.refl _
  | classAd ad => exact evaluateFound_below heval s _
  | list exprs scope =>
    refine Watch.Below.bind (u.selectEach_below hself s attr exprs) ?_
    intro made
    cases made with
    | none => exact Watch.Below.refl _
    | some made => exact deepen_below heval s _

include hself heval in
private theorem select_below (e : Expr D) (attr : Name) :
    Watch.Below (u.select self eval s e attr) (u.select self' eval' s e attr) := by
  refine Watch.Below.bind (hself s e) ?_
  intro r
  exact Watch.Below.ite (u.selectFrom_below hself heval s attr r.2) (Watch.Below.refl _)

include heval in
private theorem subscript_below (v w : EvalValue D) :
    Watch.Below (u.subscript eval s v w) (u.subscript eval' s v w) := by
  unfold subscript
  split
  · cases (u.ad _).lookup _ with
    | none => exact Watch.Below.refl _
    | some e => exact Watch.Below.bind (escape_below e (heval _ _)) fun _ => Watch.Below.refl _
  · split
    · exact Watch.Below.refl _
    · exact Watch.Below.bind (deepen_below heval _ _) fun _ => Watch.Below.refl _
  · exact Watch.Below.refl _

include hself in
private theorem operands_below (ts : List (Expr D)) :
    Watch.Below (operands self s ts) (operands self' s ts) := by
  induction ts with
  | nil => exact Watch.Below.refl _
  | cons t ts ih =>
    refine Watch.Below.bind (hself s t) ?_
    intro r
    refine Watch.Below.ite ?_ (Watch.Below.refl _)
    exact Watch.Below.bind ih fun _ => Watch.Below.refl _

include heval in
private theorem run_below (args : List (Expr D)) (p : Program D) :
    Watch.Below (u.run eval s args p) (u.run eval' s args p) := by
  induction p with
  | answer ok v => exact Watch.Below.refl _
  | argument i next ih =>
    unfold run
    cases args[i]? with
    | none => exact ih _
    | some e => exact Watch.Below.bind (heval s e) ih
  | evaluate e next ih => exact Watch.Below.bind (escape_below e (heval s e)) ih
  | evaluateIn scope e next ih => exact Watch.Below.bind (escape_below e (heval _ e)) ih

include heval in
private theorem call_below (name : Name) (args : List (Expr D)) :
    Watch.Below (u.call eval s name args) (u.call eval' s name args) := by
  unfold call
  cases u.functions name with
  | none => exact Watch.Below.refl _
  | some f => exact u.run_below heval s args _

variable [Doubles D]

include heval in
theorem doOperation_below (op : OpKind) (vs : List (EvalValue D)) :
    Watch.Below (Operation.doOperation u.oldSemantics op vs (u.subscript eval s))
      (Operation.doOperation u.oldSemantics op vs (u.subscript eval' s)) := by
  rw [Operation.doOperation_eq _ _ _ (u.subscript eval s),
    Operation.doOperation_eq _ _ _ (u.subscript eval' s)]
  split
  · exact u.subscript_below heval s _ _
  · exact Watch.Below.refl _

include hself heval in
private theorem operate_below (op : OpKind) (vs : List (EvalValue D)) (ts : List (Expr D)) :
    Watch.Below (u.operate self eval s op vs ts) (u.operate self' eval' s op vs ts) := by
  refine Watch.Below.bind (operands_below hself s ts) ?_
  intro ws
  cases ws with
  | none => exact Watch.Below.refl _
  | some ws =>
    exact Watch.Below.bind (u.doOperation_below heval s op _) fun _ => Watch.Below.refl _

include heval in
private theorem step_below (e : Expr D) : Watch.Below (u.step eval s e) (u.step eval' s e) := by
  cases e with
  | literal | exprList | classAd => exact Watch.Below.refl _
  | attrRef attr absolute => exact evaluateFound_below heval s _
  | select e attr => exact u.select_below heval heval s e attr
  | op1 op t => exact u.operate_below heval heval s op [] [t]
  | op2 op t1 t2 =>
    refine Watch.Below.bind (heval s t1) ?_
    intro r
    refine Watch.Below.ite ?_ (Watch.Below.refl _)
    cases u.decided op r.2 with
    | some b => exact Watch.Below.refl _
    | none => exact u.operate_below heval heval s op [r.2] [t2]
  | op3 op t1 t2 t3 =>
    refine Watch.Below.bind (heval s t1) ?_
    intro r
    refine Watch.Below.ite ?_ (Watch.Below.refl _)
    have hall := u.operate_below heval heval s op [r.2] [t2,t3]
    cases u.chosen op r.2 t2 t3 with
    | none => exact hall
    | some t =>
      refine Watch.Below.bind (heval s t) ?_
      intro c
      exact Watch.Below.ite (Watch.Below.refl _) hall
  | fnCall name args => exact u.call_below heval s name args

end Universe

end

namespace Universe

variable [Doubles D] (u : Universe D)

theorem evaluate_below {n m : Nat} (h : n ≤ m) : (u.evaluate n).Below (u.evaluate m) := by
  induction n generalizing m with
  | zero => intro s e; exact Watch.Below.exhausted _
  | succ n ih =>
    obtain ⟨m,rfl⟩ : ∃ k, m = k + 1 := ⟨m - 1,by omega⟩
    intro s e
    exact u.step_below (ih (by omega)) s e

theorem evaluate_of_le {n m : Nat} {s : EvalState} {e : Expr D} {r : Result D}
    (h : (u.evaluate n s e).value = some r) (hnm : n ≤ m) :
    (u.evaluate m s e).value = some r := by
  rw [(u.evaluate_below hnm s e).2 r h,h]

end Universe

end Condor.ClassAds
