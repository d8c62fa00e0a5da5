import Condor.ClassAds.Operators

/-!
# Evaluation

`ExprTree::Evaluate` and the classes under it. Ads are the nodes of a heap, numbered so that the
scope around an ad has a smaller number; ads that functions make are there from the start.
-/

namespace Condor.ClassAds

open Lib

def maxClassadRecursion : Nat := 1000

structure AdNode (D : Type) where
  attrs : List (Name × Expr D)
  parentScope : Option AdId := none
  alternateScope : Option AdId := none

def AdNode.lookup {D : Type} (ad : AdNode D) (name : Name) : Option (Expr D) :=
  (ad.attrs.find? fun a => strcasecmp a.1 name).map Prod.snd

structure Heap (D : Type) where
  ad : AdId → AdNode D
  parent_lt : ∀ {id p : Nat}, (ad id).parentScope = some p → p < id
  newRoot : AdId

structure EvalState where
  rootAd : Option AdId
  curAd : Option AdId
  depthRemaining : Nat

namespace Heap

variable {D : Type}

/-- `SetRootScope`, where the fuel exceeds the number of the ad. -/
def rootFrom (h : Heap D) : Nat → AdId → AdId
  | 0, id => id
  | n + 1, id =>
    match (h.ad id).parentScope with
    | none => id
    | some p => rootFrom h n p

/-- A new state, with `SetScopes`. -/
def setScopes (h : Heap D) (scope : Option AdId) : EvalState where
  rootAd := scope.map fun id => h.rootFrom (id + 1) id
  curAd := scope
  depthRemaining := maxClassadRecursion

inductive Found (D : Type)
  | fail
  | undefined
  | ok (expr : Expr D) (ad : AdId)

def lookupFrom (h : Heap D) (rootAd : Option AdId) (name : Name) : Nat → AdId → Found D
  | 0, _ => .undefined
  | n + 1, id =>
    match (h.ad id).lookup name with
    | some e => .ok e id
    | none =>
      if strcasecmp name "toplevel".toList || strcasecmp name "root".toList then
        match rootAd with
        | none => .fail
        | some root => .ok (.classAd root) id
      else if strcasecmp name "self".toList then .ok (.classAd id) id
      else
        match (h.ad id).parentScope with
        | none => .undefined
        | some p =>
          if strcasecmp name "parent".toList then .ok (.classAd p) id
          else lookupFrom h rootAd name n p

def lookupInScope (h : Heap D) (rootAd : Option AdId) (id : AdId) (name : Name) : Found D :=
  h.lookupFrom rootAd name (id + 1) id

end Heap

abbrev Result (D : Type) := Bool × EvalValue D

/-- What a function does: it evaluates arguments, other expressions in the state of the call or
under a new state, and answers. -/
inductive Program (D : Type)
  | answer (ok : Bool) (v : EvalValue D)
  | argument (i : Nat) (next : Result D → Program D)
  | evaluate (e : Expr D) (next : Result D → Program D)
  | evaluateIn (scope : AdId) (e : Expr D) (next : Result D → Program D)

/-- The ads, the registered functions, which are given the scope of the call and its arguments,
and the flag `_useOldClassAdSemantics`. -/
structure Universe (D : Type) extends Heap D where
  functions : Name → Option (Option AdId → List (Expr D) → Program D)
  oldSemantics : Bool

/-- Evaluations note the expressions that escape from the depth of their state. -/
abbrev Evaluator (D : Type) := EvalState → Expr D → Watch (Expr D) (Result D)

variable {D : Type}

def succeed (v : EvalValue D) : Watch (Expr D) (Result D) := pure (true,v)

/-- Callers that go on after a failure find the error, or the value as it was before. -/
def failWith (v : EvalValue D) : Watch (Expr D) (Result D) := pure (false,v)

def escape {α : Type} (e : Expr D) (x : Watch (Expr D) α) : Watch (Expr D) α := do
  Watch.note e
  x

def deepen (eval : Evaluator D) (s : EvalState) (e : Expr D) : Watch (Expr D) (Result D) :=
  if s.depthRemaining = 0 then failWith .error
  else eval { s with depthRemaining := s.depthRemaining - 1 } e

/-- `SetParentScope` on the nodes of a tree, which stops at ads. -/
def Expr.setParentScope (scope : AdId) : Expr D → Expr D
  | .select e attr => .select (e.setParentScope scope) attr
  | .op1 op t => .op1 op (t.setParentScope scope)
  | .op2 op t1 t2 => .op2 op (t1.setParentScope scope) (t2.setParentScope scope)
  | .op3 op t1 t2 t3 =>
    .op3 op (t1.setParentScope scope) (t2.setParentScope scope) (t3.setParentScope scope)
  | .fnCall name args => .fnCall name (args.map fun a => a.setParentScope scope)
  | .exprList exprs _ => .exprList (exprs.map fun a => a.setParentScope scope) (some scope)
  | e => e

def madeElement (newRoot : AdId) : EvalValue D → Expr D
  | .scalar c => .literal c .none
  | .list exprs _ => .exprList (exprs.map fun e => e.setParentScope newRoot) (some newRoot)
  | .classAd ad => .classAd ad

namespace Literal

open Doubles

def evaluate [Doubles D] (value : Scalar D) (factor : NumberFactor) : EvalValue D :=
  match value with
  | .integer i =>
    if factor = .none then .integer i else .real (mul (ofInt i.toInt) (scaleFactor factor))
  | .real r => .real (mul r (scaleFactor factor))
  | c => .scalar c

end Literal

namespace Universe

variable (u : Universe D)

/-! ## Attribute references

`self` evaluates what belongs to the expression, and `eval` what attributes stand for. -/

def evaluateFound (eval : Evaluator D) (s : EvalState) : Heap.Found D → Watch (Expr D) (Result D)
  | .fail => failWith .undefined
  | .undefined => succeed .undefined
  | .ok e ad => deepen eval { s with curAd := some ad } e

/-- The lookup of `attr` and `.attr`. -/
def findAttr (s : EvalState) (attr : Name) (absolute : Bool) : Heap.Found D :=
  match if absolute then s.rootAd else s.curAd with
  | none => .fail
  | some ad =>
    match u.lookupInScope s.rootAd ad attr with
    | .undefined =>
      match (u.ad ad).alternateScope with
      | none => .undefined
      | some alternate => u.lookupInScope s.rootAd alternate attr
    | found => found

def selectEach (self : Evaluator D) (s : EvalState) (attr : Name) :
    List (Expr D) → Watch (Expr D) (Option (List (Expr D)))
  | [] => pure (some [])
  | e::es => do
    let r ← escape e (self (u.setScopes s.curAd) (.select e attr))
    if r.1 then
      let made ← selectEach self s attr es
      return made.map (madeElement u.newRoot r.2 :: ·)
    else return none

/-- `expr.attr`, from the value of the expression. -/
def selectFrom (self eval : Evaluator D) (s : EvalState) (attr : Name) :
    EvalValue D → Watch (Expr D) (Result D)
  | .undefined => succeed .undefined
  | .classAd ad => evaluateFound eval s (u.lookupInScope s.rootAd ad attr)
  | .list exprs _ => do
    match ← u.selectEach self s attr exprs with
    | none => failWith .undefined
    | some made => deepen eval s (.exprList made (some u.newRoot))
  | _ => succeed .error

def select (self eval : Evaluator D) (s : EvalState) (e : Expr D) (attr : Name) :
    Watch (Expr D) (Result D) := do
  let r ← self s e
  if r.1 then u.selectFrom self eval s attr r.2 else failWith .undefined

/-- `SUBSCRIPT_OP`. -/
def subscript (eval : Evaluator D) (s : EvalState) :
    EvalValue D → EvalValue D → Watch (Expr D) (EvalValue D)
  | .classAd ad, .string index => do
    match (u.ad ad).lookup index with
    | none => return .error
    | some e =>
      let r ← escape e (eval (u.setScopes (some ad)) e)
      return if r.1 then r.2 else .error
  | .list exprs scope, .integer i => do
    match if i < 0 then none else exprs[i.toInt.toNat]? with
    | none => return .error
    | some e =>
      let r ← deepen eval { s with curAd := scope } e
      return r.2
  | _, _ => return .error

def operands (self : Evaluator D) (s : EvalState) :
    List (Expr D) → Watch (Expr D) (Option (List (EvalValue D)))
  | [] => pure (some [])
  | t::ts => do
    let r ← self s t
    if r.1 then
      let vs ← operands self s ts
      return vs.map (r.2 :: ·)
    else return none

variable [Doubles D]

/-- The operation, when `vs` are the values of the first children and `ts` are the others. -/
def operate (self eval : Evaluator D) (s : EvalState) (op : OpKind) (vs : List (EvalValue D))
    (ts : List (Expr D)) : Watch (Expr D) (Result D) := do
  match ← operands self s ts with
  | none => failWith .error
  | some ws =>
    let v ← Operation.doOperation u.oldSemantics op (vs ++ ws) (u.subscript eval s)
    succeed v

/-- `shortCircuit` on `||` and `&&`. -/
def decided (op : OpKind) (v : EvalValue D) : Option Bool :=
  match op, v.isBooleanValueEquiv u.oldSemantics with
  | .logicalOr, some true => some true
  | .logicalAnd, some false => some false
  | _, _ => none

/-- `shortCircuit` on `?:`. -/
def chosen (op : OpKind) (v : EvalValue D) (t2 t3 : Expr D) : Option (Expr D) :=
  if op = .ternary then
    (v.isBooleanValueEquiv u.oldSemantics).map fun b => if b then t2 else t3
  else none

def run (eval : Evaluator D) (s : EvalState) (args : List (Expr D)) :
    Program D → Watch (Expr D) (Result D)
  | .answer ok v => pure (ok,v)
  | .argument i next =>
    match args[i]? with
    | none => run eval s args (next (false,.undefined))
    | some e => do
      let r ← eval s e
      run eval s args (next r)
  | .evaluate e next => do
    let r ← escape e (eval s e)
    run eval s args (next r)
  | .evaluateIn scope e next => do
    let r ← escape e (eval (u.setScopes (some scope)) e)
    run eval s args (next r)

def call (eval : Evaluator D) (s : EvalState) (name : Name) (args : List (Expr D)) :
    Watch (Expr D) (Result D) :=
  match u.functions name with
  | none => succeed .error
  | some f => u.run eval s args (f s.curAd args)

/-- One call of `_Evaluate`, with the evaluator for the calls under it. -/
def step (eval : Evaluator D) : Evaluator D := fun s e =>
  match e with
  | .literal value factor => succeed (Literal.evaluate value factor)
  | .attrRef attr absolute => evaluateFound eval s (u.findAttr s attr absolute)
  | .select e attr => u.select eval eval s e attr
  | .op1 op t => u.operate eval eval s op [] [t]
  | .op2 op t1 t2 => do
    let r ← eval s t1
    if r.1 then
      match u.decided op r.2 with
      | some b => succeed (.boolean b)
      | none => u.operate eval eval s op [r.2] [t2]
    else failWith .error
  | .op3 op t1 t2 t3 => do
    let r ← eval s t1
    if r.1 then
      match u.chosen op r.2 t2 t3 with
      | some t => do
        let c ← eval s t
        -- a failure counts as no short circuit
        if c.1 then return c else u.operate eval eval s op [r.2] [t2,t3]
      | none => u.operate eval eval s op [r.2] [t2,t3]
    else failWith .error
  | .fnCall name args => u.call eval s name args
  | .exprList exprs scope => succeed (.list exprs scope)
  | .classAd ad => succeed (.classAd ad)

/-- `Evaluate( state, val )`; the fuel bounds the nesting of its calls. -/
def evaluate : Nat → Evaluator D
  | 0 => fun _ _ => Watch.exhausted
  | n + 1 => u.step (evaluate n)

end Universe

end Condor.ClassAds
