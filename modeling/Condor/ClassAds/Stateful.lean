import Condor.ClassAds.Flatten

/-!
# The state of an evaluation

A lookup leaves in the state the ad in which it ended. Here `Evaluate` and `Flatten` write to the
state as the source does, and every call of them is recorded when it returns. Trees collected as
significant are left out. An ad that a flattening makes is in the heap from the start.
-/

namespace Condor.ClassAds

open Lib

/-- The returns of a reference without setting the ad back: the lookup or the evaluation failed, or
a tree takes its place. -/
inductive Skip
  | lookupFailed | targetFailed | inlined
  deriving DecidableEq

structure Left where
  how : Skip
  found : Option AdId

structure Call where
  entry : EvalState
  exit : EvalState
  ok : Bool
  left : Option Left

abbrev Scoped (α : Type) := StateT EvalState (Watch Call) α

/-- What `FindExpr` returns: `EVAL_FAIL`, one of the two kinds of undefined, one of the two kinds of
error, or `EVAL_OK`. -/
inductive Lookup (D : Type)
  | fail | undefined | error
  | ok (tree : Expr D)

namespace Stateful

variable {D : Type}

def setCurAd (curAd : Option AdId) : Scoped Unit := modify fun s => { s with curAd := curAd }

/-- `state.depth_remaining--`, a computation, and `state.depth_remaining++`. -/
def deeper {α : Type} (x : Scoped α) : Scoped α := do
  modify fun s => { s with depthRemaining := s.depthRemaining - 1 }
  let a ← x
  modify fun s => { s with depthRemaining := s.depthRemaining + 1 }
  return a

def under {α : Type} (s1 : EvalState) (x : Scoped α) : Scoped α := fun s => do
  let r ← x s1
  return (r.1,s)

def recorded {α : Type} (ok : α → Bool) (x : Scoped (α × Option Left)) : Scoped α := do
  let entry ← get
  let r ← x
  let exit ← get
  StateT.lift (Watch.note ⟨entry,exit,ok r.1,r.2⟩)
  return r.1

def restoring {α : Type} (x : Scoped α) : Scoped (α × Option Left) := do
  return (← x,none)

variable (u : Universe D)

/-- `LookupInScope`, which moves from ad to ad; the fuel exceeds the number of the ad. -/
def lookupFrom (name : Name) : Nat → AdId → Scoped (Lookup D)
  | 0, _ => return .undefined
  | n + 1, id => do
    setCurAd (some id)
    match (u.ad id).lookup name with
    | some e => return .ok e
    | none =>
      if strcasecmp name "toplevel".toList || strcasecmp name "root".toList then
        match (← get).rootAd with
        | none => return .fail
        | some root => return .ok (.classAd root)
      else if strcasecmp name "self".toList then return .ok (.classAd id)
      else
        match (u.ad id).parentScope with
        | none => return .undefined
        | some p =>
          if strcasecmp name "parent".toList then return .ok (.classAd p)
          else lookupFrom name n p

def lookupInScope (id : AdId) (name : Name) : Scoped (Lookup D) := lookupFrom u name (id + 1) id

/-- `FindExpr` of `attr` and `.attr`. -/
def findAttr (attr : Name) (absolute : Bool) : Scoped (Lookup D) := do
  let s ← get
  match if absolute then s.rootAd else s.curAd with
  | none => return .fail
  | some ad =>
    match ← lookupInScope u ad attr with
    | .undefined =>
      match (u.ad ad).alternateScope with
      | none => return .undefined
      | some alternate => lookupInScope u alternate attr
    | found => return found

def selectEach (self : Expr D → Scoped (Result D)) (scope : Option AdId) (attr : Name) :
    List (Expr D) → Scoped (Option (List (Expr D)))
  | [] => return some []
  | e :: es => do
    let r ← under (u.setScopes scope) (self (.select e attr))
    if r.1 then
      let made ← selectEach self scope attr es
      return made.map (madeElement u.newRoot r.2 :: ·)
    else return none

/-- `FindExpr` of `expr.attr`. -/
def findSelected (self : Expr D → Scoped (Result D)) (e : Expr D) (attr : Name) :
    Scoped (Lookup D) := do
  let r ← self e
  if r.1 then
    match r.2 with
    | .undefined => return .undefined
    | .classAd ad => lookupInScope u ad attr
    | .list exprs _ =>
      let s ← get
      match ← selectEach u self s.curAd attr exprs with
      | none => return .fail
      | some made => return .ok (.exprList made (some u.newRoot))
    | _ => return .error
  else return .fail

/-- `AttributeReference::_Evaluate`. -/
def evaluateReference (eval : Expr D → Scoped (Result D)) (find : Scoped (Lookup D)) :
    Scoped (Result D × Option Left) := do
  let s ← get
  match ← find with
  | .fail => return ((false,.undefined),some ⟨.lookupFailed,(← get).curAd⟩)
  | .error =>
    setCurAd s.curAd
    return ((true,.error),none)
  | .undefined =>
    setCurAd s.curAd
    return ((true,.undefined),none)
  | .ok tree =>
    if (← get).depthRemaining = 0 then
      setCurAd s.curAd
      return ((false,.error),none)
    else
      let r ← deeper (eval tree)
      setCurAd s.curAd
      return (r,none)

/-- `AttributeReference::_Evaluate` with the significant tree, where a failure returns early. -/
def evaluateReferenceSig (eval : Expr D → Scoped (Result D)) (find : Scoped (Lookup D)) :
    Scoped (Result D × Option Left) := do
  let s ← get
  match ← find with
  | .fail => return ((false,.undefined),some ⟨.lookupFailed,(← get).curAd⟩)
  | .error =>
    setCurAd s.curAd
    return ((true,.error),none)
  | .undefined =>
    setCurAd s.curAd
    return ((true,.undefined),none)
  | .ok tree =>
    if (← get).depthRemaining = 0 then
      setCurAd s.curAd
      return ((false,.error),none)
    else
      let found := (← get).curAd
      let r ← deeper (eval tree)
      if r.1 then
        setCurAd s.curAd
        return (r,none)
      else return (r,some ⟨.targetFailed,found⟩)

/-- `GetValue` of an element, which does not look at whether the evaluation succeeds. -/
def getValue (eval : Expr D → Scoped (Result D)) (scope : Option AdId) (e : Expr D) :
    Scoped (EvalValue D) := do
  if (← get).depthRemaining = 0 then return .error
  else
    let r ← deeper do
      let s ← get
      setCurAd scope
      let r ← eval e
      setCurAd s.curAd
      return r
    return r.2

/-- `SUBSCRIPT_OP`. -/
def subscript (eval : Expr D → Scoped (Result D)) :
    EvalValue D → EvalValue D → Scoped (EvalValue D)
  | .classAd ad, .string index => do
    match (u.ad ad).lookup index with
    | none => return .error
    | some e =>
      let r ← under (u.setScopes (some ad)) (eval e)
      return if r.1 then r.2 else .error
  | .list exprs scope, .integer i => do
    match if i < 0 then none else exprs[i.toInt.toNat]? with
    | none => return .error
    | some e => getValue eval scope e
  | _, _ => return .error

def operands (self : Expr D → Scoped (Result D)) :
    List (Expr D) → Scoped (Option (List (EvalValue D)))
  | [] => return some []
  | t :: ts => do
    let r ← self t
    if r.1 then
      let vs ← operands self ts
      return vs.map (r.2 :: ·)
    else return none

def runProgram (eval : Expr D → Scoped (Result D)) (args : List (Expr D)) :
    Program D → Scoped (Result D)
  | .answer ok v => return (ok,v)
  | .argument i next =>
    match args[i]? with
    | none => runProgram eval args (next (false,.undefined))
    | some e => do
      let r ← eval e
      runProgram eval args (next r)
  | .evaluate e next => do
    let r ← eval e
    runProgram eval args (next r)
  | .evaluateIn scope e next => do
    let r ← under (u.setScopes (some scope)) (eval e)
    runProgram eval args (next r)

def call (eval : Expr D → Scoped (Result D)) (name : Name) (args : List (Expr D)) :
    Scoped (Result D) := do
  match u.functions name with
  | none => return (true,.error)
  | some f =>
    let s ← get
    runProgram u eval args (f s.curAd args)

def signArguments (sign : Expr D → Scoped (Result D)) (ok : Bool) :
    List (Expr D) → Scoped Bool
  | [] => return ok
  | e :: es => do
    let r ← sign e
    signArguments sign r.1 es

variable [Doubles D]

def operate (self eval : Expr D → Scoped (Result D)) (op : OpKind) (vs : List (EvalValue D))
    (ts : List (Expr D)) : Scoped (Result D) := do
  match ← operands self ts with
  | none => return (false,.error)
  | some ws =>
    let v ← Operation.doOperation u.oldSemantics op (vs ++ ws) (subscript u eval)
    return (true,v)

/-- `_Evaluate`. -/
def step (eval : Expr D → Scoped (Result D)) (e : Expr D) : Scoped (Result D × Option Left) :=
  match e with
  | .literal value factor => restoring (return (true,Literal.evaluate value factor))
  | .attrRef attr absolute => evaluateReference eval (findAttr u attr absolute)
  | .select e attr => evaluateReference eval (findSelected u eval e attr)
  | .op1 op t => restoring (operate u eval eval op [] [t])
  | .op2 op t1 t2 => restoring do
    let r ← eval t1
    if r.1 then
      match u.decided op r.2 with
      | some b => return (true,.boolean b)
      | none => operate u eval eval op [r.2] [t2]
    else return (false,.error)
  | .op3 op t1 t2 t3 => restoring do
    let r ← eval t1
    if r.1 then
      match u.chosen op r.2 t2 t3 with
      | some t =>
        let c ← eval t
        if c.1 then return c else operate u eval eval op [r.2] [t2,t3]
      | none => operate u eval eval op [r.2] [t2,t3]
    else return (false,.error)
  | .fnCall name args => restoring (call u eval name args)
  | .exprList exprs scope => restoring (return (true,.list exprs scope))
  | .classAd ad => restoring (return (true,.classAd ad))

/-- `Evaluate( state, val )`. -/
def evaluate : Nat → Expr D → Scoped (Result D)
  | 0, _ => StateT.lift Watch.exhausted
  | n + 1, e => recorded Prod.fst (step u (evaluate n) e)

/-- `_Evaluate` with the significant tree. -/
def stepSig (eval sign : Expr D → Scoped (Result D)) (e : Expr D) :
    Scoped (Result D × Option Left) :=
  match e with
  | .literal value factor => restoring (return (true,Literal.evaluate value factor))
  | .attrRef attr absolute => evaluateReferenceSig eval (findAttr u attr absolute)
  | .select e attr => evaluateReferenceSig eval (findSelected u sign e attr)
  | .op1 op t => restoring (operate u sign eval op [] [t])
  | .op2 op t1 t2 => restoring (operate u sign eval op [] [t1,t2])
  | .op3 op t1 t2 t3 => restoring (operate u sign eval op [] [t1,t2,t3])
  | .fnCall name args => restoring do
    let r ← call u eval name args
    if r.1 then return (← signArguments sign true args,r.2) else return r
  | .exprList exprs scope => restoring (return (true,.list exprs scope))
  | .classAd ad => restoring (return (true,.classAd ad))

/-- `Evaluate( state, val, sig )`. -/
def evaluateSig : Nat → Expr D → Scoped (Result D)
  | 0, _ => StateT.lift Watch.exhausted
  | n + 1, e => recorded Prod.fst (stepSig u (evaluate u n) (evaluateSig n) e)

section Flattening

variable (flattenAndInline : Bool) (newAd : List (Name × Expr D) → AdId)

def isOk (f : Flat D) : Bool :=
  match f with
  | .fail => false
  | _ => true

/-- `AttributeReference::_Flatten`, where `self` is the reference, and selects from `expr`. -/
def flattenReference (flat : Expr D → Scoped (Flat D)) (self : Expr D)
    (expr : Option (Expr D × Name)) (find : Scoped (Lookup D)) :
    Scoped (Flat D × Option Left) := do
  let s ← get
  match ← find with
  | .fail => return (.fail,some ⟨.lookupFailed,(← get).curAd⟩)
  | .error =>
    setCurAd s.curAd
    return (.value .error,none)
  | .undefined =>
    match if flattenAndInline then expr else none with
    | none =>
      setCurAd s.curAd
      return (.tree self none,none)
    | some (e,attr) =>
      if (← get).depthRemaining = 0 then
        setCurAd s.curAd
        return (.fail,none)
      else
        let f ← deeper (flat e)
        setCurAd s.curAd
        match f.folded with
        | .tree t _ => return (.tree (.select t attr) none,none)
        | _ => return (.tree self none,none)
  | .ok tree =>
    if (← get).depthRemaining = 0 then
      setCurAd s.curAd
      return (.fail,none)
    else
      let found := (← get).curAd
      let f ← deeper (flat tree)
      match f.folded with
      | .tree t _ =>
        if flattenAndInline then return (.tree t none,some ⟨.inlined,found⟩)
        else
          setCurAd s.curAd
          return (.tree self none,none)
      | f =>
        setCurAd s.curAd
        return (f,none)

def flattenEach (flat : Expr D → Scoped (Flat D)) :
    List (Expr D) → Scoped (Option (List (Flat D)))
  | [] => return some []
  | e :: es => do
    match ← flat e with
    | .fail => return none
    | f =>
      let fs ← flattenEach flat es
      return fs.map (f :: ·)

def isValue (f : Flat D) : Bool :=
  match f with
  | .value _ => true
  | _ => false

/-- `FunctionCall::_Flatten`, which calls the function on the arguments as they were. -/
def flattenCall (eval : Expr D → Scoped (Result D)) (flat : Expr D → Scoped (Flat D)) (name : Name)
    (args : List (Expr D)) : Scoped (Flat D) := do
  match u.functions name with
  | none => return .value .error
  | some f =>
    match ← flattenEach flat args with
    | none => return .fail
    | some fs =>
      if fs.all isValue then
        let s ← get
        let r ← runProgram u eval args (f s.curAd args)
        return if r.1 then .value r.2 else .fail
      else return .tree (.fnCall name (fs.map Flat.toExpr)) none

/-- `ClassAd::_Flatten`. -/
def flattenAd (flat : Expr D → Scoped (Flat D)) (ad : AdId) : Scoped (Flat D) := do
  let s ← get
  setCurAd (some ad)
  let fs ← flattenEach flat ((u.ad ad).attrs.map Prod.snd)
  setCurAd s.curAd
  match fs with
  | none => return .fail
  | some fs =>
    return .tree (.classAd (newAd (((u.ad ad).attrs.map Prod.fst).zip (fs.map Flat.toExpr)))) none

def flattenBinary (eval : Expr D → Scoped (Result D)) (flat : Expr D → Scoped (Flat D))
    (op : OpKind) (t1 t2 : Expr D) : Scoped (Flat D) := do
  match ← flat t1 with
  | .fail => return .fail
  | f1 =>
    let f2 ← flat t2
    match op, f1, f2 with
    | .subscript, .value v1, .value v2 =>
      let v ← Operation.doOperation u.oldSemantics .subscript [v1,v2] fun v w =>
        match v with
        | .list _ scope => under (u.setScopes scope) (subscript u eval v w)
        | _ => subscript u eval v w
      return .value v
    | op, f1, f2 =>
      return if Operation.splits op then Operation.combine u.oldSemantics op f1 f2
        else Operation.keep u.oldSemantics op f1 f2

/-- `flattenSpecials` of the conditional operator. -/
def flattenConditional (flat : Expr D → Scoped (Flat D)) (op : OpKind) (t1 t2 t3 : Expr D) :
    Scoped (Flat D) := do
  let arms (sel : Expr D) : Scoped (Flat D) := do
    match ← flat t2 with
    | .fail => return .fail
    | f2 => return Operation.keepArms op sel f2 (← flat t3)
  match ← flat t1 with
  | .fail => return .fail
  | .value .undefined => arms t1
  | .value (.boolean b) => return (← flat (if b then t2 else t3)).folded
  | .value _ => return .value .error
  | .tree t p => arms (withPending t p)

/-- `_Flatten`. -/
def flattenStep (eval : Expr D → Scoped (Result D)) (flat : Expr D → Scoped (Flat D))
    (e : Expr D) : Scoped (Flat D × Option Left) :=
  match e with
  | .literal value factor => restoring (return .value (Literal.evaluate value factor))
  | .attrRef attr absolute =>
    flattenReference flattenAndInline flat e none (findAttr u attr absolute)
  | .select t attr =>
    flattenReference flattenAndInline flat e (some (t,attr)) (findSelected u eval t attr)
  | .op1 op t => restoring do
    return Operation.keepUnary u.oldSemantics op (← flat t)
  | .op2 op t1 t2 => restoring (flattenBinary u eval flat op t1 t2)
  | .op3 op t1 t2 t3 => restoring (flattenConditional flat op t1 t2 t3)
  | .fnCall name args => restoring (flattenCall u eval flat name args)
  | .exprList exprs _ => restoring do
    match ← flattenEach flat exprs with
    | none => return .fail
    | some fs => return .tree (.exprList (fs.map Flat.toExpr) none) none
  | .classAd ad => restoring (flattenAd u newAd flat ad)

/-- `Flatten( state, val, tree, op )`. -/
def flatten : Nat → Expr D → Scoped (Flat D)
  | 0, _ => StateT.lift Watch.exhausted
  | n + 1, e =>
    recorded isOk (flattenStep u flattenAndInline newAd (evaluate u n) (flatten n) e)

end Flattening

/-- `Evaluate`, without and with the significant tree, `Flatten` and `FlattenAndInline`. -/
inductive Entrance
  | evaluate | evaluateSig | flatten | flattenAndInline
  deriving DecidableEq

def enter (newAd : List (Name × Expr D) → AdId) (way : Entrance) (n : Nat) (e : Expr D) :
    Scoped Bool :=
  match way with
  | .evaluate => return (← evaluate u n e).1
  | .evaluateSig => return (← evaluateSig u n e).1
  | .flatten => return isOk (← flatten u false newAd n e)
  | .flattenAndInline => return isOk (← flatten u true newAd n e)

end Stateful

end Condor.ClassAds
