import Condor.Lib.Ledger
import Condor.Schedd.ProcId

/-!
# The ads of the job queue

The queue is a table of ads under job ids with an optional transaction on top, as the ClassAd log
provides it: lookups see the committed ads only, and the attributes that a transaction has set are
asked for separately.
-/

namespace Condor.Schedd

open Lib Function

/-- The name of an attribute with its letters folded to lower case: names are compared with
`strcasecmp`. -/
abbrev AttrName := List Byte

def attrName (s : CString) : AttrName := (bytes s).map tolower

def attrOwner : AttrName := attrName (cstr "Owner")
def attrNiceUser : AttrName := attrName (cstr "NiceUser")
def attrClusterId : AttrName := attrName (cstr "ClusterId")
def attrProcId : AttrName := attrName (cstr "ProcId")
def attrJobStatus : AttrName := attrName (cstr "JobStatus")
def attrJobUniverse : AttrName := attrName (cstr "JobUniverse")
def attrNextClusterNum : AttrName := attrName (cstr "NextClusterNum")
def attrGlobalJobId : AttrName := attrName (cstr "GlobalJobId")
def attrCompletionDate : AttrName := attrName (cstr "CompletionDate")
def attrJobFinishedHookDone : AttrName := attrName (cstr "JobFinishedHookDone")
def attrJobLeaveInQueue : AttrName := attrName (cstr "LeaveJobInQueue")
def attrMyProxyPasswordExists : AttrName := attrName (cstr "MyProxyPasswordExists")
def attrAutoClusterId : AttrName := attrName (cstr "AutoClusterId")
def attrAutoClusterAttrs : AttrName := attrName (cstr "AutoClusterAttrs")
def attrAccountingGroup : AttrName := attrName (cstr "AccountingGroup")
def attrJobPrio : AttrName := attrName (cstr "JobPrio")

/-- A parsed attribute value. Anything but a literal is kept as its text. -/
inductive AttrExpr where
  | undefined
  | integer (n : Int)
  | string (s : CString)
  | boolean (b : Bool)
  | other (text : CString)
deriving DecidableEq

abbrev Attrs := AttrName → Option AttrExpr

/-- An ad with its own attributes; `chained` tells whether it has been chained to the ad of its
cluster. -/
structure QueueAd where
  attrs : Attrs
  chained : Bool

abbrev JobTable := Table ProcId QueueAd

def headerKey : ProcId := ⟨0,0⟩

def clusterKey (cluster : Int) : ProcId := ⟨cluster,-1⟩

/-- `Delete` on an ad of the table: an attribute that the ad of the cluster has is made undefined
in a chained ad. -/
def deleteAttr (t : JobTable) (id : ProcId) (n : AttrName) (ad : QueueAd) : QueueAd :=
  { ad with
    attrs := update ad.attrs n
      (if ad.chained ∧ ((t.lookup (clusterKey id.cluster)).bind fun c => c.attrs n).isSome then
        some .undefined
      else none) }

inductive QueueOp where
  | newClassAd (key : ProcId)
  | destroyClassAd (key : ProcId)
  | setAttribute (key : ProcId) (name : AttrName) (value : Option AttrExpr)
  | deleteAttribute (key : ProcId) (name : AttrName)
deriving DecidableEq

namespace QueueOp

def key : QueueOp → ProcId
  | newClassAd k => k
  | destroyClassAd k => k
  | setAttribute k _ _ => k
  | deleteAttribute k _ => k

/-- `Play` of a log record. -/
def play : QueueOp → JobTable → JobTable
  | newClassAd k, t => (k,⟨fun _ => none,false⟩) :: t
  | destroyClassAd k, t => t.remove k
  | setAttribute k n v, t =>
    match v with
    | none => t
    | some e => t.adjust (fun ad => { ad with attrs := update ad.attrs n (some e) }) k
  | deleteAttribute k n, t => t.adjust (deleteAttr t k n) k

end QueueOp

abbrev JobQueue := Ledger JobTable QueueOp

namespace JobQueue

/-- `LookupClassAd`. -/
def lookupClassAd (q : JobQueue) (id : ProcId) : Option QueueAd := q.committed.lookup id

def append (q : JobQueue) (op : QueueOp) : JobQueue := Ledger.append QueueOp.play q op

def view (q : JobQueue) : JobTable := Ledger.view QueueOp.play q

/-- The attributes of an ad, with those of the ad of its cluster behind them. -/
def allAttrs (t : JobTable) (id : ProcId) (ad : QueueAd) : Attrs := fun n =>
  match ad.attrs n with
  | some e => some e
  | none =>
    if ad.chained then (t.lookup (clusterKey id.cluster)).bind fun c => c.attrs n else none

/-- What the transaction says about one attribute: not mentioned, taken away (with the whole ad
or alone), or set. -/
inductive InTransaction where
  | unknown
  | deleted
  | set (value : Option AttrExpr)

/-- The state of the loop of `ExamineTransaction` for one attribute. -/
structure Examined where
  adDeleted : Bool
  valDeleted : Bool
  val : Option (Option AttrExpr)

def Examined.step (id : ProcId) (n : AttrName) (x : Examined) : QueueOp → Examined
  | .newClassAd k => if k = id then { x with adDeleted := false } else x
  | .destroyClassAd k => if k = id then { x with adDeleted := true } else x
  | .setAttribute k m v =>
    if k = id ∧ m = n then { x with valDeleted := false, val := some v } else x
  | .deleteAttribute k m =>
    if k = id ∧ m = n then { x with valDeleted := true, val := none } else x

/-- `ExamineTransaction` for one attribute. -/
def examineTransaction (q : JobQueue) (id : ProcId) (n : AttrName) : InTransaction :=
  let x := (q.pending.getD []).foldl (Examined.step id n) ⟨false,false,none⟩
  if x.adDeleted || x.valDeleted then .deleted
  else
    match x.val with
    | some v => .set v
    | none => .unknown

/-- `LookupInTransaction` of the collection: only an attribute that is set counts. -/
def lookupInTransaction (q : JobQueue) (id : ProcId) (n : AttrName) : Option (Option AttrExpr) :=
  match q.examineTransaction id n with
  | .set v => some v
  | _ => none

/-- The attributes that `AddAttrsFromTransaction` puts over those of an ad. -/
def attrsFromTransaction (q : JobQueue) (id : ProcId) (attrs : Attrs) : Attrs :=
  let added := (q.pending.getD []).foldl
    (fun (a : Attrs) op =>
      match op with
      | .destroyClassAd k => if k = id then fun _ => none else a
      | .setAttribute k n (some e) => if k = id then update a n (some e) else a
      | .deleteAttribute k n => if k = id then update a n none else a
      | _ => a)
    (fun _ => none)
  fun n => (added n).or (attrs n)

/-- `ListNewAdsInTransaction`. -/
def newAdsInTransaction (q : JobQueue) : List ProcId :=
  (q.pending.getD []).filterMap fun
    | .newClassAd k => some k
    | _ => none

end JobQueue

theorem deleteAttr_ne (t : JobTable) (id : ProcId) (ad : QueueAd) {n n' : AttrName} (h : n' ≠ n) :
    (deleteAttr t id n ad).attrs n' = ad.attrs n' := update_of_ne h _ _

namespace QueueOp

def playKeys : QueueOp → List ProcId → List ProcId
  | newClassAd k, ks => k :: ks
  | destroyClassAd k, ks => ks.erase k
  | setAttribute .., ks => ks
  | deleteAttribute .., ks => ks

theorem keys_play (op : QueueOp) (t : JobTable) : (op.play t).keys = op.playKeys t.keys := by
  cases op with
  | newClassAd k => rfl
  | destroyClassAd k => exact Table.keys_remove t k
  | setAttribute k n v =>
    cases v with
    | none => rfl
    | some e => exact Table.keys_adjust ..
  | deleteAttribute k n => exact Table.keys_adjust ..

theorem column_play_ne (op : QueueOp) (t : JobTable) {k : ProcId} (h : k ≠ op.key) :
    (op.play t).column k = t.column k := by
  cases op with
  | newClassAd k' => exact (Table.column_cons _ t k).trans (if_neg fun he => h he.symm)
  | destroyClassAd k' => exact Table.column_remove_ne h t
  | setAttribute k' n v =>
    cases v with
    | none => rfl
    | some e => exact Table.column_adjust_ne _ h t
  | deleteAttribute k' n => exact Table.column_adjust_ne _ h t

end QueueOp

end Condor.Schedd
