import Condor.Schedd.Qmgmt

/-!
# Clusters and procs of the job queue

Cluster numbers are handed out by a counter that lives in memory and, in a transaction of the
submitter, in the header ad.
-/

namespace Condor.Schedd

open Lib Function

namespace Qmgmt

variable (E : Env) (q : Qmgmt)

def inTransaction : Bool := q.jobQueue.pending.isSome

/-- `BeginTransaction`, which asserts that there is no transaction. -/
def beginTransaction : Option Qmgmt :=
  if q.inTransaction then none
  else some { q with jobQueue := q.jobQueue.start, xactStartTime := E.now }

def chainToCluster (t : JobTable) (id : ProcId) : JobTable :=
  if id.proc ≠ -1 ∧ (t.lookup (clusterKey id.cluster)).isSome then
    t.adjust (fun ad => { ad with chained := true }) id
  else t

def commitTransaction : Qmgmt :=
  let new := q.jobQueue.newAdsInTransaction
  let queue := Ledger.commit QueueOp.play q.jobQueue
  { q with
    jobQueue := { queue with committed := new.foldl chainToCluster queue.committed }
    xactStartTime := 0 }

def abortTransaction : Qmgmt := { q with jobQueue := q.jobQueue.abort }

/-- `ClusterCleanup`. -/
def clusterCleanup (cluster : Int) : Qmgmt :=
  { q with clusterSize := update q.clusterSize cluster none }.log
    (.destroyClassAd (clusterKey cluster))

def incrementClusterSize (cluster : Int) : Qmgmt :=
  { q with
    clusterSize :=
      update q.clusterSize cluster (some ((q.clusterSize cluster).getD 0 + 1))
    totalJobsCount := q.totalJobsCount + 1 }

def decrementClusterSize (cluster : Int) : Qmgmt :=
  let q := { q with totalJobsCount := q.totalJobsCount - 1 }
  match q.clusterSize cluster with
  | none => q
  | some n =>
    if n - 1 = 0 then q.clusterCleanup cluster
    else { q with clusterSize := update q.clusterSize cluster (some (n - 1)) }

def wrapClusterNum (s : ClusterSettings) (n : Int) : Int :=
  if 0 < s.maximum ∧ s.maximum < n then s.initial else n

def takeClusterNum : Qmgmt :=
  { q with
    nextProcNum := 0
    activeClusterNum := q.nextClusterNum
    nextClusterNum := wrapClusterNum q.settings (q.nextClusterNum + q.settings.increment) }

def logCluster : Qmgmt :=
  (q.log (.setAttribute headerKey attrNextClusterNum (some (.integer q.nextClusterNum)))).log
    (.newClassAd (clusterKey q.activeClusterNum))

/-- `NewCluster`. The active cluster has changed before the number is looked up. -/
def newCluster : Qmgmt × Int :=
  if !q.ownerCheck E none then (q,-1)
  else if E.maxJobsSubmitted ≤ q.totalJobsCount then (q,-2)
  else if (q.jobQueue.lookupClassAd (clusterKey q.nextClusterNum)).isSome then
    (q.takeClusterNum,-3)
  else (q.takeClusterNum.logCluster,q.nextClusterNum)

def nextProc : ProcId := ⟨q.activeClusterNum,q.nextProcNum⟩

def logProc : Qmgmt :=
  ((({ q with nextProcNum := q.nextProcNum + 1 }.log (.newClassAd q.nextProc)).incrementClusterSize
    q.activeClusterNum).log
      (.setAttribute q.nextProc attrGlobalJobId (some (E.globalJobId q.nextProc))))

/-- `NewProc`. -/
def newProc (cluster : Int) : Qmgmt × Int :=
  if !q.ownerCheck E none then (q,-1)
  else if cluster ≠ q.activeClusterNum ∨ cluster < 1 then (q,-1)
  else if E.maxJobsSubmitted ≤ q.totalJobsCount then (q,-2)
  else (q.logProc E,q.nextProcNum)

def universeStandard : Int := 1
def universeMpi : Int := 8
def universeParallel : Int := 11

def stampCompletion (id : ProcId) (attrs : Attrs) : Option Qmgmt :=
  if (lookupInteger E attrs attrJobStatus).getD (-1) = completed ∧
      (lookupInteger E attrs attrCompletionDate).getD 0 = 0 then
    (q.setAttributeInt E id (cstr "CompletionDate") E.now noFlags).map Prod.fst
  else some q

def currentAttrs (id : ProcId) (ad : QueueAd) : Attrs :=
  JobQueue.allAttrs q.jobQueue.committed id ((q.jobQueue.lookupClassAd id).getD ad)

/-- The state of the loop of `DestroyCluster`: the queue, and whether an ad was refused. -/
structure Destroying where
  q : Qmgmt
  refused : Bool

/-- One turn of the loop of `DestroyCluster`. -/
def destroyClusterTurn (cluster : Int) (s : Destroying) (e : ProcId × QueueAd) :
    Option Destroying :=
  if s.refused ∨ e.1.cluster ≠ cluster ∨ e.1.proc ≤ -1 then some s
  else if !s.q.ownerCheck E (s.q.ownerOf E e.1 e.2) then some { s with refused := true }
  else
    (s.q.stampCompletion E e.1 (JobQueue.allAttrs s.q.jobQueue.committed e.1 e.2)).map fun q =>
      if (lookupBool E (q.currentAttrs e.1 e.2) attrJobLeaveInQueue).getD false then ⟨q,false⟩
      else ⟨q.log (.destroyClassAd e.1),false⟩

/-- `DestroyCluster`, called without a reason. -/
def destroyCluster (cluster : Int) : Option (Qmgmt × Int) :=
  if cluster < 1 then some (q,-1)
  else
    (run (destroyClusterTurn E cluster) ⟨q,false⟩ q.jobQueue.committed).bind fun s =>
      if s.refused then some (s.q,-1)
      else
        ((s.q.clusterCleanup cluster).destroyMyProxyPassword E (clusterKey cluster)).map
          fun q => (q,0)

def destroyProcError : Int := -1
def destroyProcEacces : Int := -2
def destroyProcEnoent : Int := -3
def destroyProcSuccess : Int := 0
def destroyProcSuccessDelay : Int := 1

/-- The end of `DestroyProc`: the ad goes, and the counters follow at once. -/
def removeProc (id : ProcId) : Option Qmgmt :=
  (q.destroyMyProxyPassword E id).map fun q =>
    (q.log (.destroyClassAd id)).decrementClusterSize id.cluster

/-- The two tests that may leave a job in the queue: its hook has finished, and it does not
want to stay. -/
def mayLeave (id : ProcId) (ad : QueueAd) : Bool :=
  let attrs := q.currentAttrs id ad
  (lookupInteger E attrs attrJobFinishedHookDone).getD (-1) != -1 &&
    !(lookupBool E (q.jobQueue.attrsFromTransaction id attrs) attrJobLeaveInQueue).getD false

def isParallel (id : ProcId) (ad : QueueAd) : Bool :=
  let univ := (lookupInteger E (q.currentAttrs id ad) attrJobUniverse).getD universeStandard
  univ == universeMpi || univ == universeParallel

/-- `DestroyProc`. -/
def destroyProc (id : ProcId) : Option (Qmgmt × Int) :=
  match q.jobQueue.lookupClassAd id with
  | none => some (q,destroyProcEnoent)
  | some ad =>
    if !q.ownerCheck E (q.ownerOf E id ad) then some (q,destroyProcEacces)
    else
      (q.stampCompletion E id (JobQueue.allAttrs q.jobQueue.committed id ad)).bind fun q =>
        if !q.mayLeave E id ad then some (q,destroyProcSuccessDelay)
        else if q.isParallel E id ad then
          (q.destroyCluster E id.cluster).map fun r =>
            (r.1,if r.2 < 0 then destroyProcError else destroyProcSuccess)
        else if q.inTransaction then
          (q.removeProc E id).map fun q => (q,destroyProcSuccess)
        else
          (q.beginTransaction E).bind fun q =>
            (q.removeProc E id).map fun q => (q.commitTransaction,destroyProcSuccess)

def universeMin : Int := 0
def universeMax : Int := 14

/-- Whether `InitJobQueue` keeps the ad of a job. -/
def keepsJob (id : ProcId) (attrs : Attrs) : Bool :=
  (lookupString E attrs attrOwner).isSome &&
    lookupInteger E attrs attrClusterId == some id.cluster &&
    (lookupInteger E attrs attrProcId).isSome &&
    (lookupInteger E attrs attrJobUniverse).any fun u => universeMin < u && u < universeMax

def raiseClusterNum (cluster : Int) : Qmgmt :=
  if q.nextClusterNum ≤ cluster then
    { q with nextClusterNum := cluster + q.settings.increment }
  else q

def chainJob (id : ProcId) : Qmgmt :=
  { q with jobQueue := { q.jobQueue with committed := chainToCluster q.jobQueue.committed id } }

/-- One turn of the loop of `InitJobQueue`. -/
def initTurn (q : Qmgmt) (e : ProcId × QueueAd) : Qmgmt :=
  if !e.1.isJob then q
  else
    let q := (q.raiseClusterNum e.1.cluster).chainJob e.1
    if keepsJob E e.1 (q.currentAttrs e.1 e.2) then q.incrementClusterSize e.1.cluster
    else q.log (.destroyClassAd e.1)

def initial (t : JobTable) (settings : ClusterSettings) : Qmgmt where
  jobQueue := ⟨t,none⟩
  nextClusterNum := settings.initial
  nextProcNum := 0
  activeClusterNum := -1
  clusterSize _ := none
  totalJobsCount := 0
  xactStartTime := 0
  ownerHistory := []
  prioRecArrayIsDirty := true
  settings := settings
  peer := none

def storedClusterNum (t : JobTable) (settings : ClusterSettings) : Int :=
  let stored := ((t.lookup headerKey).bind fun ad =>
    lookupInteger E ad.attrs attrNextClusterNum).getD 0
  if 0 < settings.maximum ∧ settings.maximum < stored then 0 else stored

def withHeader (t : JobTable) (settings : ClusterSettings) : Qmgmt :=
  if (t.lookup headerKey).isSome then initial t settings
  else (initial t settings).log (.newClassAd headerKey)

/-- The loop of `InitJobQueue`, over all ads. -/
def initLoop (t : JobTable) (settings : ClusterSettings) : Qmgmt :=
  (withHeader t settings).jobQueue.committed.foldl (initTurn E) (withHeader t settings)

/-- `InitJobQueue` behind the reading of the log. It stops the schedd when the header ad would hand
out a number again. -/
def initFromAds (t : JobTable) (settings : ClusterSettings) : Option Qmgmt :=
  let q := initLoop E t settings
  let stored := storedClusterNum E t settings
  let next := wrapClusterNum settings q.nextClusterNum
  if stored = 0 then
    some ({ q with nextClusterNum := next }.log
      (.setAttribute headerKey attrNextClusterNum (some (.integer next))))
  else if stored < next ∧ settings.maximum ≤ 0 then none
  else some { q with nextClusterNum := stored }

/-- The ads as the log gives them back: unchained, and without the undefined values that `Delete`
left in them. -/
def reread (t : JobTable) : JobTable :=
  t.map fun e => (e.1,{
    attrs := fun n => match e.2.attrs n with
      | some .undefined => if E.rotated e.1 n then some .undefined else none
      | v => v
    chained := false })

/-- `InitJobQueue`, over the ads that were there when the schedd went down. -/
def initJobQueue (t : JobTable) (settings : ClusterSettings) : Option Qmgmt :=
  initFromAds E (reread E t) settings

def unsetQmgmtConnection : Qmgmt :=
  { q.abortTransaction with
    nextProcNum := 0
    activeClusterNum := -1
    xactStartTime := 0
    peer := none }

def jobsOf (keys : List ProcId) (cluster : Int) : Nat :=
  keys.countP fun id => id.isJob && id.cluster == cluster

/-- The table of cluster sizes that `AbortTransactionAndRecomputeClusters` makes from the keys of
the queue. -/
def recount (keys : List ProcId) (cluster : Int) : Option Int :=
  if jobsOf keys cluster = 0 then none else some (jobsOf keys cluster)

/-- `AbortTransactionAndRecomputeClusters`. -/
def abortTransactionAndRecomputeClusters : Qmgmt :=
  if q.inTransaction then
    { q.abortTransaction with clusterSize := recount q.jobQueue.committed.keys }
  else q

/-- The begin of `handle_q`. -/
def connect (peer : Peer) : Option Qmgmt :=
  { q.unsetQmgmtConnection with peer := some peer }.beginTransaction E

/-- The end of `handle_q`: `unsetQSock` comes first. -/
def disconnect : Qmgmt := q.unsetQmgmtConnection.abortTransactionAndRecomputeClusters

end Qmgmt

/-- The requests of a client, with the arguments as they come over the wire. -/
inductive Request where
  | newCluster
  | newProc (cluster : Int)
  | destroyProc (id : ProcId)
  | destroyCluster (cluster : Int)
  | setAttribute (id : ProcId) (name value : Option CString) (flags : Flags)
  | setAttributeByConstraint (constraint name value : Option CString) (flags : Flags)
  | setTimerAttribute (id : ProcId) (name : Option CString) (duration : Int)
  | deleteAttribute (id : ProcId) (name : Option CString)
  | getAttribute (id : ProcId) (name : Option CString)
  | beginTransaction
  | commitTransaction
  | abortTransaction

def attrMyProxyPassword : CString := cstr "MyProxyPassword"

namespace Qmgmt

variable (E : Env) (q : Qmgmt)

/-- `do_Q_request`, with the value that is sent back. -/
def doQRequest : Request → Option (Qmgmt × Int)
  | .newCluster => some (q.newCluster E)
  | .newProc cluster => some (q.newProc E cluster)
  | .destroyProc id => q.destroyProc E id
  | .destroyCluster cluster => q.destroyCluster E cluster
  | .setAttribute id name value flags =>
    -- the password itself is not put into the ad
    if name = some attrMyProxyPassword ∧ value.isSome then q.setMyProxyPassword E id
    else q.setAttribute E id name value flags
  | .setAttributeByConstraint constraint name value flags =>
    match name with
    | none => none
    | some s =>
      if s = attrMyProxyPassword then some (q,0)
      else q.setAttributeByConstraint E constraint name value flags
  | .setTimerAttribute id name duration => q.setTimerAttribute E id name duration
  | .deleteAttribute id name => q.deleteAttribute E id name
  | .getAttribute _ name =>
    -- `ClassAdAttributeIsPrivate` compares the name at once
    match name with
    | none => none
    | some _ => some (q,0)
  | .beginTransaction => (q.beginTransaction E).map fun q => (q,0)
  | .commitTransaction => some (q.commitTransaction,0)
  | .abortTransaction => some (q.abortTransaction,0)

inductive Event where
  | connect (E : Env) (peer : Peer)
  | request (E : Env) (r : Request)
  | disconnect

def step (q : Qmgmt) : Event → Option Qmgmt
  | .connect E peer => q.connect E peer
  | .request E r => (q.doQRequest E r).map Prod.fst
  | .disconnect => some q.disconnect

end Qmgmt

/-- A schedd that is down, with the queue on its disk and the settings of its last start, or one
that runs. -/
inductive World where
  | down (disk : JobTable) (last : Option ClusterSettings)
  | up (q : Qmgmt)

namespace World

inductive Event where
  | start (E : Env) (settings : ClusterSettings)
  | queue (a : Qmgmt.Event)
  | crash

/-- A crash, and a request that stops the schedd, leave what was committed. -/
def step : World → Event → Option World
  | down t _, .start E settings => (Qmgmt.initJobQueue E t settings).map up
  | up q, .queue a =>
    match q.step a with
    | some q' => some (up q')
    | none => some (down q.jobQueue.committed (some q.settings))
  | up q, .crash => some (down q.jobQueue.committed (some q.settings))
  | _, _ => none

def initial : World := down [] none

end World

end Condor.Schedd
