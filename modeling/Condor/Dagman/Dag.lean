import Condor.Dagman.Job

/-!
# The node bookkeeping of DAGMan

The functions of `Dag` in normal mode (no recovery).
-/

namespace Condor.Dagman

open Lib Function

/-- The settings of `Dag` and `Dagman`; 0 is no limit. -/
structure Options where
  maxJobsSubmitted : Nat := 0
  maxIdleJobProcs : Nat := 0
  maxPreScripts : Nat := 0
  maxPostScripts : Nat := 0
  maxSubmitsPerInterval : Nat := 5
  maxSubmitAttempts : Nat := 6
  retrySubmitFirst : Bool := true
  retryNodeFirst : Bool := false
  submitDepthFirst : Bool := false
  generateSubdagSubmits : Bool := true
  allowLogError : Bool := false
  alwaysRunPost : Bool := true
  abortOnScarySubmit : Bool := true

structure Answer where
  /-- `BackgroundRun` got a pid. -/
  spawned : Bool := true
  /-- `MonitorLogFile` of a node that is to be submitted. -/
  monitored : Bool := true
  /-- `MonitorLogFile` of a node whose POST script is to run. -/
  postMonitored : Bool := true
  /-- `runSubmitDag` returned 0. -/
  subdagSubmitted : Bool := true
  /-- `CheckForLogFile` of a Stork node. -/
  hasLogFile : Bool := true
  /-- The submit command: the ID of the new cluster and the number of its procs less one. -/
  submitted : Option (EventKey × Nat) := none
  logged : Bool := true
  now : Nat := 0

structure ThrottleInfo where
  /-- None is `noThrottleSetting`. -/
  maxJobs : Option Nat := none
  currentJobs : Int := 0
  deriving DecidableEq

structure ScriptQ where
  running : List JobID := []
  waiting : List JobID := []
  deriving DecidableEq

structure Dag where
  numNodes : Nat := 0
  jobs : JobID → Job := fun _ => {}
  finalJob : Option JobID := none
  runningFinalNode : Bool := false
  readyQ : PriorityList := []
  preScriptQ : ScriptQ := {}
  postScriptQ : ScriptQ := {}
  /-- `_condorIDHash`, `_storkIDHash` and `_noopIDHash`. -/
  eventIDHash : EventKey → Option JobID := fun _ => none
  throttles : Category → ThrottleInfo := fun _ => {}
  numNodesDone : Int := 0
  numNodesFailed : Int := 0
  numJobsSubmitted : Int := 0
  numIdleJobProcs : Int := 0
  numHeldJobProcs : Int := 0
  preRunNodeCount : Int := 0
  postRunNodeCount : Int := 0
  dagIsHalted : Bool := false
  nextSubmitTime : Nat := 0
  nextSubmitDelay : Nat := 1
  /-- `_submitDagDeepOpts->priority`. -/
  deepPriority : Int := 0

/-- How a script process ended, as `waitpid` reports it. -/
inductive WaitStatus where
  | exited (code : Nat)
  | signaled (signal : Nat) (core : Bool)
  deriving DecidableEq

inductive Call where
  | startNode (n : JobID) (isRetry : Bool)
  | releaseChild (bootstrap : Bool) (parent child : JobID)
  | preScriptReaper (n : JobID) (status : WaitStatus)
  | postScriptReaper (n : JobID) (status : WaitStatus)
  | runWaitingScript (post : Bool)
  | runAllWaitingScripts
  | checkForDagAbort (n : JobID)
  | processNotIdleEvent (n : JobID)
  | recordSubmit (cluster proc : Nat)
  | finalNodeStarted
  | bootstrapDone (n : JobID)
  | bootstrapStart (n : JobID)
  | submitLoop (deferred : PriorityList) (count : Nat)
  | returnDeferred (deferred : PriorityList)
  deriving DecidableEq

namespace Dag

def setJob (d : Dag) (n : JobID) (j : Job) : Dag := { d with jobs := update d.jobs n j }

def modify (d : Dag) (n : JobID) (f : Job → Job) : Dag := d.setJob n (f (d.jobs n))

def setStatus (d : Dag) (n : JobID) (status : Status) : Dag :=
  d.modify n fun j => { j with status := status }

def nodeFailed (d : Dag) : Dag := { d with numNodesFailed := d.numNodesFailed + 1 }

def scriptQ (d : Dag) (post : Bool) : ScriptQ := if post then d.postScriptQ else d.preScriptQ

def setScriptQ (d : Dag) (post : Bool) (q : ScriptQ) : Dag :=
  if post then { d with postScriptQ := q } else { d with preScriptQ := q }

/-- The reaper of a script that could not be spawned is called with exit code 1. -/
def reaperOf (post : Bool) (n : JobID) (status : WaitStatus) : Call :=
  if post then .postScriptReaper n status else .preScriptReaper n status

/-- A PRE script waits while the DAG is halted (except the final node's), and any script while
the limit of its kind is reached. -/
def defersScript (o : Options) (post : Bool) (n : JobID) (d : Dag) : Bool :=
  let maxScripts := if post then o.maxPostScripts else o.maxPreScripts
  (d.dagIsHalted && !post && !(d.jobs n).final) ||
    (maxScripts != 0 && maxScripts ≤ (d.scriptQ post).running.length)

/-- `ScriptQ::Run`; the last component is what it returns. -/
def scriptRun (o : Options) (a : Answer) (post : Bool) (n : JobID) (d : Dag) :
    Dag × List Call × Bool :=
  let q := d.scriptQ post
  if d.defersScript o post n then
    (d.setScriptQ post { q with waiting := q.waiting ++ [n] },[],false)
  else if a.spawned then (d.setScriptQ post { q with running := q.running ++ [n] },[],true)
  else (d,[reaperOf post n (.exited 1)],false)

def runWaitingScript (o : Options) (a : Answer) (post : Bool) (d : Dag) :
    Dag × List Call × Bool :=
  match (d.scriptQ post).waiting with
  | [] => (d,[],false)
  | n :: rest => scriptRun o a post n (d.setScriptQ post { d.scriptQ post with waiting := rest })

def logMonitorFailed (n : JobID) (d : Dag) : Dag :=
  if (d.jobs n).status = .error then d
  else d.modify n fun j => { j with status := .error, retval := dagErrorLogMonitorError }

def monitorLogFile (success : Bool) (n : JobID) (d : Dag) : Bool × Dag :=
  if (d.jobs n).logIsMonitored then (true,d)
  else if success then (true,d.modify n fun j => { j with logIsMonitored := true })
  else (false,d.logMonitorFailed n)

def unmonitorLogFile (n : JobID) (d : Dag) : Dag :=
  d.modify n fun j => { j with logIsMonitored := false }

/-- One parent's part in `FixPriority`. -/
def raisePriority (j parent : Job) : Job :=
  if parent.hasNodePriority && j.nodePriority < parent.nodePriority then
    { j with nodePriority := parent.nodePriority, hasNodePriority := true }
  else j

def fixPriority (n : JobID) (d : Dag) : Dag :=
  d.modify n fun j => j.parents.elems.foldl (fun j p => raisePriority j (d.jobs p)) j

def enqueueReady (first : Bool) (n : JobID) (d : Dag) : Dag :=
  { d with readyQ := d.readyQ.add first n (-(d.jobs n).nodePriority) }

def startNode (o : Options) (a : Answer) (n : JobID) (isRetry : Bool) (d : Dag) :
    Option (Dag × List Call) :=
  if !(d.jobs n).canSubmit then none
  else if (d.jobs n).scriptPre && !(d.jobs n).preDone then
    let d := d.setStatus n .prerun
    let run := scriptRun o a false n { d with preRunNodeCount := d.preRunNodeCount + 1 }
    some (run.1,run.2.1)
  else
    some (enqueueReady ((isRetry && o.retryNodeFirst) || o.submitDepthFirst) n (d.fixPriority n),[])

def countAsDone (n : JobID) (d : Dag) : Option Dag :=
  if (d.jobs n).countedAsDone then some d
  else
    let d := { d with numNodesDone := d.numNodesDone + 1 }.modify n
      fun j => { j with countedAsDone := true }
    if d.numNodesDone ≤ d.numNodes then some d else none

/-- `TerminateJob`, up to its loop over the children. -/
def terminateJob (bootstrap : Bool) (n : JobID) (d : Dag) : Option (Dag × List Call) :=
  let d := if d.finalJob = some n then { d with runningFinalNode := false } else d
  ((d.setStatus n .done).countAsDone n).map fun d =>
    (d,(d.jobs n).children.elems.map (Call.releaseChild bootstrap n))

/-- The body of the loop of `TerminateJob`. -/
def releaseChild (bootstrap : Bool) (parent child : JobID) (d : Dag) :
    Option (Dag × List Call) :=
  if child < d.numNodes then
    let d := d.modify child fun j => { j with waiting := j.waiting.erase parent }
    if (d.jobs child).canSubmit && !bootstrap then some (d,[.startNode child false])
    else some (d,[])
  else none

def restartNode (n : JobID) (d : Dag) : Option (Dag × List Call) :=
  if (d.jobs n).status ≠ .error then none
  else if (d.jobs n).retryAbortVal = some (d.jobs n).retval then some (d.nodeFailed,[])
  else if (d.jobs n).retries < (d.jobs n).retryMax then
    some (d.modify n fun j =>
      { j with status := .ready, retries := j.retries + 1,
               preDone := if j.scriptPre then false else j.preDone },
      [.startNode n true])
  else none

def retryOrFail (n : JobID) (d : Dag) : Option (Dag × List Call) :=
  if (d.jobs n).retries < (d.jobs n).retryMax then restartNode n d
  else some (d.nodeFailed,[])

def runPostScript (o : Options) (a : Answer) (ignoreStatus : Bool) (status : Int) (n : JobID)
    (d : Dag) : Dag × List Call :=
  if (!ignoreStatus && status != 0) || !(d.jobs n).scriptPost then (d,[])
  else
    match monitorLogFile a.postMonitored n (d.setStatus n .postrun) with
    | (false,d) => (d,[])
    | (true,d) =>
      let run := scriptRun o a true n { d with postRunNodeCount := d.postRunNodeCount + 1 }
      (run.1,run.2.1)

/-- `StartFinalNode`; none when it is not started. -/
def startFinalNode (d : Dag) : Option (Dag × List Call) :=
  match d.finalJob with
  | none => none
  | some f =>
    if (d.jobs f).status = .notReady then
      let d := { d with readyQ := d.readyQ.filter fun x => (d.jobs x.1).final }
      some (d.setStatus f .ready,[.startNode f false,.finalNodeStarted])
    else none

/-- `main_shutdown_rescue`: the program ends unless there is a final node to start. -/
def mainShutdownRescue (d : Dag) : Option (Dag × List Call) := d.startFinalNode

def abortsDag (n : JobID) (d : Dag) : Bool := (d.jobs n).abortDagVal == some (d.jobs n).retval

def checkForDagAbort (n : JobID) (d : Dag) : Option (Dag × List Call) :=
  if d.abortsDag n then d.mainShutdownRescue else some (d,[])

/-- A failed PRE script, with the node in error: the PRE_SKIP value makes it a success, a POST
script runs, or the node is retried. -/
def preScriptFailed (o : Options) (a : Answer) (n : JobID) (retval : Int) (d : Dag) :
    Option (Dag × List Call) :=
  if (d.jobs n).preSkip = some retval then
    terminateJob false n (d.modify n fun j => { j with retval := 0 })
  else if o.alwaysRunPost && (d.jobs n).scriptPost then
    some (runPostScript o a o.alwaysRunPost retval n d)
  else retryOrFail n d

def preRetval : WaitStatus → Int
  | .signaled signal _ => 0 - (signal : Int)
  | .exited code => code

def preScriptReaper (o : Options) (a : Answer) (n : JobID) (status : WaitStatus) (d : Dag) :
    Option (Dag × List Call) :=
  if (d.jobs n).status ≠ .prerun then none
  else
    let d := { d with preRunNodeCount := d.preRunNodeCount - 1 }
    let d := d.modify n fun j => { j with retval := preRetval status }
    let result : Option (Dag × List Call) :=
      if status = .exited 0 then
        some (enqueueReady o.submitDepthFirst n (d.setStatus n .ready),[])
      else preScriptFailed o a n (preRetval status) (d.setStatus n .error)
    result.map fun r => (r.1,r.2 ++ [.checkForDagAbort n])

def processPostTermEvent (n : JobID) (t : Termination) (d : Dag) : Option (Dag × List Call) :=
  let d := d.unmonitorLogFile n
  if (d.jobs n).status ≠ .postrun then none
  else
    let d := { d with postRunNodeCount := d.postRunNodeCount - 1 }
    let result :=
      if t.failed then
        retryOrFail n (d.modify n fun j => { j with status := .error, retval := t.retval })
      else terminateJob false n (d.modify n fun j => { j with retval := 0 })
    result.map fun r => (r.1,r.2 ++ [.checkForDagAbort n])

def postTermination : WaitStatus → Termination
  | .exited code => .exited code
  -- the whole wait status is put where the signal number belongs
  | .signaled signal core => .signaled (signal + if core then 128 else 0)

/-- `PostScriptReaper`: the event of a Condor node goes into its log and is handled when it is
read back; a Stork node is handled at once. -/
def postScriptReaper (a : Answer) (n : JobID) (status : WaitStatus) (d : Dag) :
    Option (Dag × List Call × Option Termination) :=
  if (d.jobs n).status ≠ .postrun then none
  else if (d.jobs n).jobType = .stork then
    (processPostTermEvent n (postTermination status) d).map fun r => (r.1,r.2,none)
  else if a.logged then some (d,[],some (postTermination status))
  else d.mainShutdownRescue.map fun r => (r.1,r.2,none)

def updateJobCounts (n : JobID) (change : Int) (d : Dag) : Option Dag :=
  let d := { d with numJobsSubmitted := d.numJobsSubmitted + change }
  if d.numJobsSubmitted < 0 then none
  else
    match (d.jobs n).throttle with
    | none => some d
    | some c =>
      let info := { d.throttles c with currentJobs := (d.throttles c).currentJobs + change }
      if info.currentJobs < 0 then none
      else some { d with throttles := update d.throttles c info }

def decrementJobCounts (n : JobID) (d : Dag) : Option Dag :=
  let d := d.modify n fun j => { j with queuedNodeJobProcs := j.queuedNodeJobProcs - 1 }
  if (d.jobs n).queuedNodeJobProcs < 0 then none
  else if (d.jobs n).queuedNodeJobProcs = 0 then d.updateJobCounts n (-1)
  else some d

def processJobProcEnd (o : Options) (a : Answer) (n : JobID) (failed : Bool) (d : Dag) :
    Option (Dag × List Call) :=
  let last := (d.jobs n).queuedNodeJobProcs = 0
  let d := if last then d.unmonitorLogFile n else d
  if failed && !(d.jobs n).scriptPost then
    if (d.jobs n).retries < (d.jobs n).retryMax then restartNode n d
    else if last then some (d.nodeFailed,[])
    else some (d,[])
  else if last then
    if (d.jobs n).scriptPost then some (runPostScript o a o.alwaysRunPost 0 n d)
    else if (d.jobs n).status ≠ .error then terminateJob false n d
    else some (d,[])
  else some (d,[])

def procFailed (n : JobID) (retval : Int) (d : Dag) : Dag :=
  if (d.jobs n).status = .error then d
  else d.modify n fun j => { j with status := .error, retval := retval }

def processAbortEvent (o : Options) (a : Answer) (n : JobID) (d : Dag) :
    Option (Dag × List Call) :=
  (d.decrementJobCounts n).bind fun d =>
    let d := if (d.jobs n).jobProcsOnHold > 0 then
        { d with numHeldJobProcs := d.numHeldJobProcs - 1 }.modify n
          fun j => { j with jobProcsOnHold := j.jobProcsOnHold - 1 }
      else d
    processJobProcEnd o a n true (d.procFailed n dagErrorCondorJobAborted)

def processTerminatedEvent (o : Options) (a : Answer) (n : JobID) (t : Termination) (d : Dag) :
    Option (Dag × List Call) :=
  (d.decrementJobCounts n).bind fun d =>
    let d :=
      if t.failed then d.procFailed n t.retval
      else if (d.jobs n).status = .error then d
      else d.modify n fun j => { j with retval := 0 }
    if !(d.jobs n).scriptPost && d.abortsDag n then d.mainShutdownRescue
    else processJobProcEnd o a n t.failed d

def processIsIdleEvent (n : JobID) (d : Dag) : Dag :=
  if (d.jobs n).isIdle then d
  else { d with numIdleJobProcs := d.numIdleJobProcs + 1 }.modify n
    fun j => { j with isIdle := true }

def processNotIdleEvent (n : JobID) (d : Dag) : Dag :=
  if (d.jobs n).isIdle then
    { d with numIdleJobProcs := d.numIdleJobProcs - 1 }.modify n fun j => { j with isIdle := false }
  else d

def processHeldEvent (n : JobID) (d : Dag) : Dag :=
  { d with numHeldJobProcs := d.numHeldJobProcs + 1 }.modify n fun j =>
    { j with timesHeld := j.timesHeld + 1, jobProcsOnHold := j.jobProcsOnHold + 1 }

def processReleasedEvent (n : JobID) (d : Dag) : Dag :=
  { d with numHeldJobProcs := d.numHeldJobProcs - 1 }.modify n fun j =>
    { j with jobProcsOnHold := j.jobProcsOnHold - 1 }

/-- The node has no ID or one of the same cluster: the comparison of `SanityCheckSubmitEvent`
and `FindNodeByEventID`. -/
def clusterMatches (n : JobID) (key : EventKey) (d : Dag) : Bool :=
  match (d.jobs n).condorID with
  | none => true
  | some k => k.cluster == key.cluster

/-- The rest of `LogEventNodeLookup` for a submit event, then `ProcessSubmitEvent` and
`ProcessIsIdleEvent`. -/
def recordSubmit (n : JobID) (key : EventKey) (sane : Bool) (d : Dag) : Option Dag :=
  if key.isNoop ≠ (d.jobs n).noop then none
  else
    let d := d.modify n fun j => { j with condorID := some key }
    let hashed : Option Dag := match d.eventIDHash key with
      | none => some { d with eventIDHash := update d.eventIDHash key (some n) }
      | some m => if m = n then some d else none
    hashed.bind fun d =>
      if !(d.jobs n).waiting.isEmpty then none
      else
        let d := if sane || (d.jobs n).status != .submitted then
            d.modify n fun j => { j with queuedNodeJobProcs := j.queuedNodeJobProcs + 1 }
          else d
        some (d.processIsIdleEvent n)

/-- `FindNodeByEventID`; the outer none is a fatal mismatch. -/
def findNodeByEventID (key : EventKey) (d : Dag) : Option (Option JobID) :=
  match d.eventIDHash key with
  | none => some none
  | some n =>
    if d.clusterMatches n key && key.isNoop == (d.jobs n).noop then some (some n) else none

inductive SubmitResult where
  | success (key : EventKey) (moreProcs : Nat)
  | failed
  | noSubmit

def swapPriorities (n : JobID) (d : Dag) : Dag :=
  { d with deepPriority := (d.jobs n).nodePriority }.modify n
    fun j => { j with nodePriority := d.deepPriority }

/-- The submission of a nested DAG's submit file, with the priorities swapped before and
after. -/
def regenerateSubmitFile (n : JobID) (d : Dag) : Dag :=
  let d := if (d.jobs n).hasNodePriority && d.deepPriority < (d.jobs n).nodePriority then
    d.swapPriorities n else d
  if (d.jobs n).hasNodePriority && (d.jobs n).nodePriority < d.deepPriority then
    d.swapPriorities n else d

def resetCondorID (n : JobID) (d : Dag) : Option Dag :=
  match (d.jobs n).condorID with
  | none => some d
  | some key =>
    if (d.jobs n).noop || d.eventIDHash key == none then none
    else some ({ d with eventIDHash := update d.eventIDHash key none }.modify n
      fun j => { j with condorID := none })

def submitNodeJob (o : Options) (a : Answer) (n : JobID) (d : Dag) : Option (SubmitResult × Dag) :=
  (d.resetCondorID n).map fun d =>
    let j := d.jobs n
    let nested := j.jobType == .condor && !j.noop && j.dagFile && o.generateSubdagSubmits
    let d := if nested then d.regenerateSubmitFile n else d
    if nested && !a.subdagSubmitted then (.noSubmit,d)
    else
      match monitorLogFile a.monitored n d with
      | (false,d) => (.noSubmit,d)
      | (true,d) =>
        if !o.allowLogError && (d.jobs n).jobType == .stork && !a.hasLogFile then
          (.noSubmit,(d.setStatus n .error).nodeFailed)
        else
          let d := d.modify n fun j => { j with submitTries := j.submitTries + 1 }
          match a.submitted with
          | none => (.failed,d)
          | some (key,moreProcs) => (.success key moreProcs,d)

def processSuccessfulSubmit (n : JobID) (key : EventKey) (d : Dag) : Option Dag :=
  let d := { d with nextSubmitTime := 0, nextSubmitDelay := 1 }.setStatus n .submitted
  (d.updateJobCounts n 1).bind fun d =>
    if key.isNoop = (d.jobs n).noop ∧ d.eventIDHash key = none then
      some ({ d with eventIDHash := update d.eventIDHash key (some n) }.modify n
        fun j => { j with condorID := some key })
    else none

def processFailedSubmit (o : Options) (a : Answer) (n : JobID) (d : Dag) : Dag × List Call :=
  let d := { d with nextSubmitTime := a.now + d.nextSubmitDelay,
                    nextSubmitDelay := d.nextSubmitDelay * 2 }.unmonitorLogFile n
  if o.maxSubmitAttempts ≤ (d.jobs n).submitTries then
    let d := { d with nextSubmitTime := 0, nextSubmitDelay := 1 }.modify n
      fun j => { j with retries := j.retryMax }
    if (d.jobs n).scriptPost then runPostScript o a o.alwaysRunPost 0 n d
    else ((d.setStatus n .error).nodeFailed,[])
  else (enqueueReady o.retrySubmitFirst n d,[])

def cycleEnds (o : Options) (count : Nat) (d : Dag) : Bool :=
  o.maxSubmitsPerInterval ≤ count ||
    (o.maxJobsSubmitted != 0 && (o.maxJobsSubmitted : Int) ≤ d.numJobsSubmitted) ||
    (o.maxIdleJobProcs != 0 && (o.maxIdleJobProcs : Int) ≤ d.numIdleJobProcs)

def throttled (n : JobID) (d : Dag) : Bool :=
  match (d.jobs n).throttle with
  | none => false
  | some c =>
    match (d.throttles c).maxJobs with
    | none => false
    | some m => (m : Int) ≤ (d.throttles c).currentJobs

def returnDeferred (deferred : PriorityList) (d : Dag) : Dag :=
  let readyQ := deferred.foldl (fun q x => q.prepend x.1 (-(d.jobs x.1).nodePriority)) d.readyQ
  { d with readyQ := readyQ }

/-- One round of the loop of `SubmitReadyJobs`; the last component is a submitted cluster. -/
def submitRound (o : Options) (a : Answer) (deferred : PriorityList) (count : Nat) (d : Dag) :
    Option (Dag × List Call × Option (JobID × EventKey × Nat)) :=
  match d.readyQ with
  | [] => some (d,[.returnDeferred deferred],none)
  | (n,_) :: rest =>
    if d.cycleEnds o count then some (d,[.returnDeferred deferred],none)
    else
      let d := { d with readyQ := rest }
      if (d.jobs n).status ≠ .ready then none
      else if d.throttled n then
        some (d,[.submitLoop (deferred.prepend n (-(d.jobs n).nodePriority)) count],none)
      else
        (d.submitNodeJob o a n).bind fun r =>
          match r.1 with
          | .success key moreProcs =>
            (r.2.processSuccessfulSubmit n key).map fun d =>
              (d,[.submitLoop deferred (count+1)],some (n,key,moreProcs))
          | .failed =>
            let f := r.2.processFailedSubmit o a n
            some (f.1,f.2 ++ [.returnDeferred deferred],none)
          | .noSubmit => some (r.2,[.submitLoop deferred count],none)

/-- `SubmitReadyJobs` up to its loop. -/
def submitReadyJobs (now : Nat) (haltFile : Bool) (d : Dag) : Dag × List Call :=
  if d.nextSubmitTime ≠ 0 ∧ now < d.nextSubmitTime then (d,[])
  else
    let wasHalted := d.dagIsHalted
    let d := { d with dagIsHalted := haltFile }
    if d.dagIsHalted && !d.runningFinalNode then (d,[])
    else (d,(if wasHalted then [.runAllWaitingScripts] else []) ++ [.submitLoop [] 0])

end Dag

end Condor.Dagman
