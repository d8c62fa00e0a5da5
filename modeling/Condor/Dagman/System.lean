import Condor.Dagman.Dag
import Condor.Lib.Run

/-!
# DAGMan and the batch system

The clusters that DAGMan submitted, each proc with what the log says about it, and the POST script
events that wait in the log.
-/

namespace Condor.Dagman

open Lib

inductive ProcState where
  | pending
  | queued
  | ended
  deriving DecidableEq

structure Cluster where
  key : EventKey
  node : JobID
  procs : List ProcState
  deriving DecidableEq

/-- A POST script event in the log; no key stands for a node that never got an ID. -/
structure PostEvent where
  key : Option EventKey
  node : JobID
  result : Termination
  deriving DecidableEq

structure System where
  dag : Dag := {}
  clusters : List Cluster := []
  postEvents : List PostEvent := []
  bootstrapped : Bool := false
  calls : List Call := []

structure NodeSpec where
  jobType : JobType := .condor
  noop : Bool := false
  isFinal : Bool := false
  done : Bool := false
  dagFile : Bool := false
  scriptPre : Bool := false
  scriptPost : Bool := false
  preSkip : Option Int := none
  retryMax : Nat := 0
  retryAbortVal : Option Int := none
  abortDagVal : Option Int := none
  throttle : Option Category := none
  priority : Option Int := none

inductive ProcEnd where
  | aborted
  | terminated (t : Termination)
  deriving DecidableEq

def ProcEnd.failed : ProcEnd → Bool
  | aborted => true
  | terminated t => t.failed

def ProcEnd.retval : ProcEnd → Int
  | aborted => dagErrorCondorJobAborted
  | terminated t => t.retval

inductive QuietEvent where
  | idle
  | notIdle
  | held
  | released
  deriving DecidableEq

inductive Action where
  | addNode (spec : NodeSpec)
  | addDependency (parent child : JobID)
  | removeDependency (parent child : JobID)
  | markDone (n : JobID)
  | setThrottle (c : Category) (maxJobs : Nat)
  | bootstrap
  | submitReadyJobs (now : Nat) (haltFile : Bool)
  | submitEvent (cluster proc : Nat)
  | endEvent (cluster proc : Nat) (result : ProcEnd) (answer : Answer)
  | postEvent (index : Nat)
  | quietEvent (cluster proc : Nat) (event : QuietEvent)
  | scriptReaper (post : Bool) (n : JobID) (status : WaitStatus)
  | startFinalNode

inductive Label where
  | act (action : Action)
  | exec (answer : Answer)

def NodeSpec.toJob (spec : NodeSpec) : Job :=
  { status := if spec.isFinal then .notReady else if spec.done then .done else .ready
    jobType := spec.jobType, noop := spec.noop, final := spec.isFinal, dagFile := spec.dagFile
    scriptPre := spec.scriptPre, scriptPost := spec.scriptPost, preSkip := spec.preSkip
    retryMax := spec.retryMax, retryAbortVal := spec.retryAbortVal
    abortDagVal := spec.abortDagVal, throttle := spec.throttle
    hasNodePriority := spec.priority.isSome, nodePriority := spec.priority.getD 0 }

namespace Dag

/-- `AddNode`. A second final node is refused. -/
def addNode (spec : NodeSpec) (d : Dag) : Dag :=
  if spec.isFinal && d.finalJob.isSome then d
  else
    let d := { d with finalJob := if spec.isFinal then some d.numNodes else d.finalJob }
    { d with numNodes := d.numNodes + 1 }.setJob d.numNodes spec.toJob

/-- `AddParent`, with whether it succeeded; the second `Add` may find the parent already
waited for, which is fatal. -/
def addParent (parent child : JobID) (d : Dag) : Option (Dag × Bool) :=
  if !(d.jobs child).canAddParent (d.jobs parent) then some (d,false)
  else if parent ∈ (d.jobs child).parents then some (d,true)
  else if (d.jobs parent).status = .done then
    some (d.modify child fun j => { j with parents := j.parents.insert parent },true)
  else if parent ∈ (d.jobs child).waiting then none
  else some (d.modify child fun j =>
    { j with parents := j.parents.insert parent, waiting := j.waiting.insert parent },true)

def addDependency (parent child : JobID) (d : Dag) : Option (Dag × Bool) :=
  if !(d.jobs parent).canAddChild then some (d,false)
  else
    let d := if child ∈ (d.jobs parent).children then d
      else d.modify parent fun j => { j with children := j.children.insert child }
    (addParent parent child d).map fun r =>
      if r.2 then r
      else (r.1.modify parent fun j => { j with children := j.children.erase child },false)

def removeDependency (parent child : JobID) (d : Dag) : Option (Dag × Bool) :=
  if child ∉ (d.jobs parent).children then some (d,false)
  else if parent ∉ (d.jobs child).parents then none
  else
    let d := d.modify parent fun j => { j with children := j.children.erase child }
    some (d.modify child fun j => { j with parents := j.parents.erase parent },true)

end Dag

namespace System

def push (s : System) (r : Dag × List Call) : System :=
  { s with dag := r.1, calls := r.2 ++ s.calls }

def build (s : System) (r : Option (Dag × Bool)) : Option System :=
  r.map fun r => { s with dag := r.1 }

def advanceProc (s : System) (cluster proc : Nat) (before after : ProcState) :
    Option (Cluster × System) :=
  match s.clusters[cluster]? with
  | none => none
  | some c =>
    if c.procs[proc]? = some before then
      some (c,{ s with
        clusters := s.clusters.set cluster { c with procs := c.procs.set proc after } })
    else none

def buildAct (s : System) : Action → Option System
  | .addNode spec => some { s with dag := s.dag.addNode spec }
  | .addDependency parent child =>
    if parent < s.dag.numNodes ∧ child < s.dag.numNodes then
      s.build (s.dag.addDependency parent child)
    else none
  | .removeDependency parent child =>
    if parent < s.dag.numNodes ∧ child < s.dag.numNodes then
      s.build (s.dag.removeDependency parent child)
    else none
  | .markDone n =>
    if n < s.dag.numNodes ∧ (s.dag.jobs n).final = false then
      some { s with dag := s.dag.setStatus n .done }
    else none
  | .setThrottle c maxJobs =>
    let info := { s.dag.throttles c with maxJobs := some maxJobs }
    some { s with dag := { s.dag with throttles := Function.update s.dag.throttles c info } }
  | .bootstrap =>
    let nodes := List.range s.dag.numNodes
    some { s with
      bootstrapped := true
      calls := nodes.map Call.bootstrapDone ++ nodes.map Call.bootstrapStart }
  | _ => none

def recordSubmit (s : System) (cluster proc : Nat) (sane : Bool) : Option System :=
  (s.advanceProc cluster proc .pending .queued).bind fun r =>
    (s.dag.recordSubmit r.1.node r.1.key sane).map fun d => { r.2 with dag := d }

def submitEvent (o : Options) (s : System) (cluster proc : Nat) : Option System :=
  match s.clusters[cluster]? with
  | none => none
  | some c =>
    if c.procs[proc]? ≠ some .pending then none
    else if s.dag.clusterMatches c.node c.key then s.recordSubmit cluster proc true
    else if o.abortOnScarySubmit then
      s.dag.mainShutdownRescue.map fun f => s.push (f.1,f.2 ++ [.recordSubmit cluster proc])
    else s.recordSubmit cluster proc false

def endEvent (o : Options) (s : System) (cluster proc : Nat) (result : ProcEnd) (a : Answer) :
    Option System :=
  (s.advanceProc cluster proc .queued .ended).bind fun r =>
    (s.dag.findNodeByEventID r.1.key).bind fun node =>
      match node with
      | none => some r.2
      | some n =>
        let handled := match result with
          | .aborted => s.dag.processAbortEvent o a n
          | .terminated t => s.dag.processTerminatedEvent o a n t
        handled.map fun h => r.2.push (h.1,h.2 ++ [.processNotIdleEvent n])

def postEvent (s : System) (index : Nat) : Option System :=
  match s.postEvents[index]? with
  | none => none
  | some e =>
    let rest := { s with postEvents := s.postEvents.eraseIdx index }
    let node : Option (Option JobID) := match e.key with
      | none => some (some e.node)
      | some key => s.dag.findNodeByEventID key
    node.bind fun node =>
      match node with
      | none => some rest
      | some n => (s.dag.processPostTermEvent n e.result).map rest.push

def quietEvent (s : System) (cluster proc : Nat) (event : QuietEvent) : Option System :=
  (s.advanceProc cluster proc .queued .queued).bind fun r =>
    (s.dag.findNodeByEventID r.1.key).map fun node =>
      match node with
      | none => s
      | some n =>
        let d := match event with
          | .idle => s.dag.processIsIdleEvent n
          | .notIdle => s.dag.processNotIdleEvent n
          | .held => (s.dag.processHeldEvent n).processIsIdleEvent n
          | .released => s.dag.processReleasedEvent n
        { s with dag := d }

/-- `ScriptReaper` of a script that is running. -/
def scriptReaper (s : System) (post : Bool) (n : JobID) (status : WaitStatus) : Option System :=
  let q := s.dag.scriptQ post
  if n ∈ q.running then
    let d := s.dag.setScriptQ post { q with running := q.running.erase n }
    let d := if post then d else d.modify n fun j => { j with preDone := true }
    some (s.push (d,[Dag.reaperOf post n status,.runWaitingScript post]))
  else none

def runAct (o : Options) (s : System) : Action → Option System
  | .submitReadyJobs now haltFile => some (s.push (s.dag.submitReadyJobs now haltFile))
  | .submitEvent cluster proc => s.submitEvent o cluster proc
  | .endEvent cluster proc result a => s.endEvent o cluster proc result a
  | .postEvent index => s.postEvent index
  | .quietEvent cluster proc event => s.quietEvent cluster proc event
  | .scriptReaper post n status => s.scriptReaper post n status
  | .startFinalNode =>
    match s.dag.startFinalNode with
    | none => some s
    | some r => some (s.push r)
  | _ => none

def dagCall (o : Options) (a : Answer) (d : Dag) : Call → Option (Dag × List Call)
  | .startNode n isRetry => d.startNode o a n isRetry
  | .releaseChild bootstrap parent child => d.releaseChild bootstrap parent child
  | .preScriptReaper n status => d.preScriptReaper o a n status
  | .runWaitingScript post =>
    let r := d.runWaitingScript o a post
    some (r.1,r.2.1)
  | .runAllWaitingScripts =>
    let r := d.runWaitingScript o a false
    some (r.1,r.2.1 ++ if r.2.2 then [.runAllWaitingScripts] else [])
  | .checkForDagAbort n => d.checkForDagAbort n
  | .processNotIdleEvent n => some (d.processNotIdleEvent n,[])
  | .finalNodeStarted => some ({ d with runningFinalNode := true },[])
  | .bootstrapDone n =>
    if (d.jobs n).status = .done then d.terminateJob true n else some (d,[])
  | .bootstrapStart n =>
    some (d,if (d.jobs n).canSubmit then [.startNode n false] else [])
  | .returnDeferred deferred => some (d.returnDeferred deferred,[])
  | .recordSubmit .. => none
  | .postScriptReaper .. => none
  | .submitLoop .. => none

def execCall (o : Options) (a : Answer) (s : System) : Call → Option System
  | .recordSubmit cluster proc => s.recordSubmit cluster proc true
  | .postScriptReaper n status =>
    (s.dag.postScriptReaper a n status).map fun r =>
      let s := s.push (r.1,r.2.1)
      match r.2.2 with
      | none => s
      | some t => { s with postEvents := s.postEvents ++ [⟨(s.dag.jobs n).condorID,n,t⟩] }
  | .submitLoop deferred count =>
    (s.dag.submitRound o a deferred count).map fun r =>
      let s := s.push (r.1,r.2.1)
      match r.2.2 with
      | none => s
      | some (n,key,moreProcs) =>
        { s with clusters := s.clusters ++ [⟨key,n,List.replicate (moreProcs+1) .pending⟩] }
  | call => (dagCall o a s.dag call).map s.push

def step (o : Options) (s : System) : Label → Option System
  | .act action =>
    if s.calls ≠ [] then none
    else if s.bootstrapped then s.runAct o action else s.buildAct action
  | .exec a =>
    match s.calls with
    | [] => none
    | call :: rest => { s with calls := rest }.execCall o a call

end System

end Condor.Dagman
