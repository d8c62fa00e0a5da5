import Condor.Lib.OrderedMap

/-!
# The nodes of a DAG

A node carries its dependencies three times: its parents, its children, and the parents it still
waits for.
-/

namespace Condor.Dagman

open Lib

abbrev JobID := Nat

abbrev Category := String

/-- `Job::status_t`. -/
inductive Status where
  | notReady
  | ready
  | prerun
  | submitted
  | postrun
  | done
  | error
  deriving DecidableEq

inductive JobType where
  | condor
  | stork
  deriving DecidableEq

/-- What the event tables are indexed by: the cluster of a Condor or Stork job, or the subproc of a
NOOP job. -/
inductive EventKey where
  | condor (cluster : Nat)
  | stork (cluster : Nat)
  | noop (subproc : Nat)
  deriving DecidableEq

namespace EventKey

/-- `JobIsNoop`. -/
def isNoop : EventKey → Bool
  | noop _ => true
  | _ => false

def cluster : EventKey → Nat
  | condor c => c
  | stork c => c
  | noop _ => 0

end EventKey

/-- The fields of `Job` that the functions of this development read. -/
structure Job where
  status : Status := .ready
  parents : OrderedSet JobID := .empty
  children : OrderedSet JobID := .empty
  waiting : OrderedSet JobID := .empty
  jobType : JobType := .condor
  noop : Bool := false
  final : Bool := false
  dagFile : Bool := false
  scriptPre : Bool := false
  /-- `_scriptPre->_done`. -/
  preDone : Bool := false
  scriptPost : Bool := false
  preSkip : Option Int := none
  retryMax : Nat := 0
  retries : Nat := 0
  retryAbortVal : Option Int := none
  abortDagVal : Option Int := none
  retval : Int := -1
  submitTries : Nat := 0
  queuedNodeJobProcs : Int := 0
  condorID : Option EventKey := none
  throttle : Option Category := none
  hasNodePriority : Bool := false
  nodePriority : Int := 0
  logIsMonitored : Bool := false
  isIdle : Bool := false
  timesHeld : Nat := 0
  jobProcsOnHold : Int := 0
  countedAsDone : Bool := false
  deriving DecidableEq

namespace Job

def canSubmit (j : Job) : Bool := j.waiting.isEmpty && j.status == .ready

theorem canSubmit_iff {j : Job} :
    j.canSubmit = true ↔ j.waiting.isEmpty = true ∧ j.status = .ready := by
  rw [canSubmit,Bool.and_eq_true,beq_iff_eq]

/-- `CanAddParent`, called on the child. -/
def canAddParent (child parent : Job) : Bool :=
  !child.final && (child.status == .ready || parent.status == .done)

/-- `CanAddChild`, called on the parent. -/
def canAddChild (parent : Job) : Bool := !parent.final

end Job

/-- The error codes of `Dag`. -/
def dagErrorCondorJobAborted : Int := -1002

def dagErrorLogMonitorError : Int := -1003

inductive Termination where
  | exited (code : Int)
  | signaled (signal : Int)
  deriving DecidableEq

namespace Termination

def failed (t : Termination) : Bool := t != .exited 0

def retval : Termination → Int
  | exited code => code
  | signaled signal => 0 - signal

end Termination

/-- `PrioritySimpleList` of node IDs. -/
abbrev PriorityList := List (JobID × Int)

namespace PriorityList

def append (n : JobID) (prio : Int) : PriorityList → PriorityList
  | [] => [(n,prio)]
  | x :: xs => if prio < x.2 then (n,prio) :: x :: xs else x :: append n prio xs

def prepend (n : JobID) (prio : Int) : PriorityList → PriorityList
  | [] => [(n,prio)]
  | x :: xs => if prio ≤ x.2 then (n,prio) :: x :: xs else x :: prepend n prio xs

def add (first : Bool) (n : JobID) (prio : Int) (q : PriorityList) : PriorityList :=
  if first then prepend n prio q else append n prio q

def occurrences (q : PriorityList) (n : JobID) : Nat := q.countP fun x => x.1 == n

private theorem append_perm (n : JobID) (prio : Int) (q : PriorityList) :
    (append n prio q).Perm ((n,prio) :: q) := by
  induction q with
  | nil => exact List.Perm.refl _
  | cons x xs ih =>
    rw [append]
    split
    · exact List.Perm.refl _
    · exact (List.Perm.cons x ih).trans (List.Perm.swap _ x xs)

private theorem prepend_perm (n : JobID) (prio : Int) (q : PriorityList) :
    (prepend n prio q).Perm ((n,prio) :: q) := by
  induction q with
  | nil => exact List.Perm.refl _
  | cons x xs ih =>
    rw [prepend]
    split
    · exact List.Perm.refl _
    · exact (List.Perm.cons x ih).trans (List.Perm.swap _ x xs)

theorem add_perm (first : Bool) (n : JobID) (prio : Int) (q : PriorityList) :
    (add first n prio q).Perm ((n,prio) :: q) := by
  cases first
  · exact append_perm n prio q
  · exact prepend_perm n prio q

end PriorityList

end Condor.Dagman
