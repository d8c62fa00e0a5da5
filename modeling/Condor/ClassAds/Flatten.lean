import Condor.ClassAds.Significance

/-!
# Flattening

`Flatten` on expressions that are made of operators, literals and attribute references: a value, or
a tree that is left over, with which an operator and a value are still to be combined.
-/

namespace Condor.ClassAds

variable {D : Type}

/-- What `Flatten` answers: that it failed, a value, or a tree with a pending operation of which
the value is the first operand. -/
inductive Flat (D : Type)
  | fail
  | value (v : EvalValue D)
  | tree (t : Expr D) (pending : Option (OpKind × EvalValue D))

/-- `MakeLiteral`. -/
def literalOf : EvalValue D → Expr D
  | .scalar c => .literal c .none
  | .list exprs scope => .exprList exprs scope
  | .classAd ad => .classAd ad

def withPending (t : Expr D) : Option (OpKind × EvalValue D) → Expr D
  | none => t
  | some (op,v) => .op2 op (literalOf v) t

namespace Flat

def folded : Flat D → Flat D
  | .tree t p => .tree (withPending t p) none
  | f => f

def toExpr : Flat D → Expr D
  | .fail => .literal .error .none
  | .value v => literalOf v
  | .tree t p => withPending t p

end Flat

namespace Operation

variable [Doubles D]

/-- `_doOperation` on values that are no lists and no ads. -/
def compute (oldSemantics : Bool) (op : OpKind) (vs : List (EvalValue D)) : EvalValue D :=
  Id.run (doOperation oldSemantics op vs fun _ _ => pure .error)

/-- The operators that are commutative and associative for `Flatten`. -/
def splits : OpKind → Bool
  | .addition | .multiplication | .logicalOr | .logicalAnd
  | .bitwiseOr | .bitwiseXor | .bitwiseAnd => true
  | _ => false

def isLogical : OpKind → Bool
  | .logicalOr | .logicalAnd => true
  | _ => false

def dontCare (oldSemantics : Bool) (op : OpKind) (v w : EvalValue D) : Option Bool :=
  if isLogical op then
    match compute oldSemantics op [v,w] with
    | .boolean b => some b
    | _ => none
  else none

/-- `combine`. -/
def combine (oldSemantics : Bool) (op : OpKind) : Flat D → Flat D → Flat D
  | .fail, _ => .fail
  | _, .fail => .fail
  | .value v1, .value v2 => .value (compute oldSemantics op [v1,v2])
  | .value v1, .tree t2 p2 =>
    match dontCare oldSemantics op v1 .undefined, p2 with
    | some b, _ => .value (.boolean b)
    | none, none => .tree t2 (some (op,v1))
    | none, some (op₂,v2) =>
      if op₂ = op then .tree t2 (some (op,compute oldSemantics op [v1,v2]))
      else .tree (.op2 op (literalOf v1) (withPending t2 p2)) none
  | .tree t1 p1, .value v2 =>
    match dontCare oldSemantics op .undefined v2, p1 with
    | some b, _ => .value (.boolean b)
    | none, none => .tree t1 (some (op,v2))
    | none, some (op₁,v1) =>
      if op₁ = op then .tree t1 (some (op,compute oldSemantics op [v1,v2]))
      else .tree (.op2 op (withPending t1 p1) (literalOf v2)) none
  | .tree t1 p1, .tree t2 p2 =>
    match p1, p2 with
    | none, none => .tree (.op2 op t1 t2) none
    | none, some (op₂,v2) =>
      if op₂ = op then .tree (.op2 op t1 t2) (some (op,v2))
      else .tree (.op2 op t1 (withPending t2 p2)) none
    | some (op₁,v1), none =>
      if op₁ = op then .tree (.op2 op t1 t2) (some (op,v1))
      else .tree (.op2 op (withPending t1 p1) t2) none
    | some (op₁,v1), some (op₂,v2) =>
      if op₁ = op ∧ op₂ = op then
        .tree (.op2 op t1 t2) (some (op,compute oldSemantics op [v1,v2]))
      else if op₁ = op then .tree (.op2 op t1 t2) (some (op,v1))
      else if op₂ = op then .tree (.op2 op t1 t2) (some (op,v2))
      else .tree (.op2 op (withPending t1 p1) (withPending t2 p2)) none

def keep (oldSemantics : Bool) (op : OpKind) : Flat D → Flat D → Flat D
  | .fail, _ => .fail
  | _, .fail => .fail
  | .value v1, .value v2 => .value (compute oldSemantics op [v1,v2])
  | f1, f2 => .tree (.op2 op f1.toExpr f2.toExpr) none

def keepUnary (oldSemantics : Bool) (op : OpKind) : Flat D → Flat D
  | .fail => .fail
  | .value v => .value (compute oldSemantics op [v])
  | .tree t p => .tree (.op1 op (withPending t p)) none

/-- The conditional operator whose selector `sel` is left over. -/
def keepArms (op : OpKind) (sel : Expr D) : Flat D → Flat D → Flat D
  | .fail, _ => .fail
  | _, .fail => .fail
  | f2, f3 => .tree (.op3 op sel f2.toExpr f3.toExpr) none

/-- The conditional operator `flattenSpecials`: a selector that is a value has to be a boolean,
or undefined. -/
def conditional (op : OpKind) (sel : Expr D) (f1 f2 f3 : Flat D) : Flat D :=
  match f1 with
  | .fail => .fail
  | .value .undefined => keepArms op sel f2 f3
  | .value (.boolean b) => (if b then f2 else f3).folded
  | .value _ => .value .error
  | .tree t p => keepArms op (withPending t p) f2 f3

end Operation

namespace Universe

variable [Doubles D] (u : Universe D)

/-- `_Flatten`, where `target` flattens what attributes stand for. -/
def flattenWith (target : EvalState → Expr D → Flat D) (s : EvalState) : Expr D → Flat D
  | .literal value factor => .value (Literal.evaluate value factor)
  | .attrRef attr absolute =>
    match u.findAttr s attr absolute with
    | .fail => .fail
    | .undefined => .tree (.attrRef attr absolute) none
    | .ok e ad =>
      if s.depthRemaining = 0 then .fail
      else
        match target { s with curAd := some ad, depthRemaining := s.depthRemaining - 1 } e with
        | .tree _ _ => .tree (.attrRef attr absolute) none
        | f => f
  | .op1 op t => Operation.keepUnary u.oldSemantics op (flattenWith target s t)
  | .op2 op t1 t2 =>
    if Operation.splits op then
      Operation.combine u.oldSemantics op (flattenWith target s t1) (flattenWith target s t2)
    else Operation.keep u.oldSemantics op (flattenWith target s t1) (flattenWith target s t2)
  | .op3 op t1 t2 t3 =>
    Operation.conditional op t1 (flattenWith target s t1) (flattenWith target s t2)
      (flattenWith target s t3)
  | _ => .fail

def flattenAt : Nat → EvalState → Expr D → Flat D
  | 0 => u.flattenWith fun _ _ => .fail
  | n + 1 => u.flattenWith (flattenAt n)

/-- `Flatten` with an `opPtr`. -/
def flatten (s : EvalState) (e : Expr D) : Flat D := u.flattenAt s.depthRemaining s e

end Universe

end Condor.ClassAds
