import Mathlib.Algebra.GroupWithZero.Nat
import Condor.Dagman.System

/-!
# What the bookkeeping amounts to

The view of a DAG keeps what the dependencies, the throttles, the retries and the accounts of the
nodes depend on, and forgets scripts, priorities, logs and idle or held procs.
-/

namespace Condor.Dagman

open Lib List Function Option

@[ext]
structure NodeView where
  status : Status
  parents : OrderedSet JobID
  children : OrderedSet JobID
  waiting : OrderedSet JobID
  final : Bool
  scriptPost : Bool
  retryMax : Nat
  retries : Nat
  throttle : Option Category
  queued : Int
  condorID : Option EventKey
  countedAsDone : Bool

@[ext]
structure View where
  numNodes : Nat
  node : JobID → NodeView
  finalJob : Option JobID
  hash : EventKey → Option JobID
  throttles : Category → ThrottleInfo
  jobsSubmitted : Int
  nodesDone : Int
  nodesFailed : Int
  preRun : Int
  postRun : Int
  ready : JobID → Nat

def Job.view (j : Job) : NodeView where
  status := j.status
  parents := j.parents
  children := j.children
  waiting := j.waiting
  final := j.final
  scriptPost := j.scriptPost
  retryMax := j.retryMax
  retries := j.retries
  throttle := j.throttle
  queued := j.queuedNodeJobProcs
  condorID := j.condorID
  countedAsDone := j.countedAsDone

def Dag.view (d : Dag) : View where
  numNodes := d.numNodes
  node n := (d.jobs n).view
  finalJob := d.finalJob
  hash := d.eventIDHash
  throttles := d.throttles
  jobsSubmitted := d.numJobsSubmitted
  nodesDone := d.numNodesDone
  nodesFailed := d.numNodesFailed
  preRun := d.preRunNodeCount
  postRun := d.postRunNodeCount
  ready := d.readyQ.occurrences

namespace View

def setNode (v : View) (n : JobID) (x : NodeView) : View :=
  { v with node := update v.node n x }

theorem setNode_setNode (v : View) (n : JobID) (x y : NodeView) :
    (v.setNode n x).setNode n y = v.setNode n y :=
  congrArg (fun node => { v with node := node }) (update_idem x y v.node)

@[simp] theorem setNode_node_self (v : View) (n : JobID) (x : NodeView) :
    (v.setNode n x).node n = x := by
  simp [setNode]

theorem setNode_eq_self (v : View) (n : JobID) : v.setNode n (v.node n) = v :=
  congrArg (fun node => { v with node := node }) (update_eq_self n v.node)

inductive Fate where
  | prerun
  | queued
  | restarted
  | failed
  | finished
  | postrun
  | lost
  deriving DecidableEq

def Fate.status : Fate → Status
  | prerun => .prerun
  | queued => .ready
  | restarted => .ready
  | failed => .error
  | finished => .done
  | postrun => .postrun
  | lost => .error

def settle (v : View) (n : JobID) (fate : Fate) (retries : Nat) : View :=
  let x := { v.node n with status := fate.status, retries := retries }
  match fate with
  | .prerun => { v.setNode n x with preRun := v.preRun + 1 }
  | .queued => { v.setNode n x with ready := update v.ready n (v.ready n + 1) }
  | .restarted => v.setNode n x
  | .failed => { v.setNode n x with nodesFailed := v.nodesFailed + 1 }
  | .finished =>
    { v.setNode n { x with countedAsDone := true } with
      nodesDone := v.nodesDone + if x.countedAsDone then 0 else 1 }
  | .postrun => { v.setNode n x with postRun := v.postRun + 1 }
  | .lost => v.setNode n x

end View

/-- The calls that carry an obligation: to start a node, to release a child, to put a node back. -/
def Call.moves : Call → Bool
  | .startNode .. => true
  | .releaseChild .. => true
  | .recordSubmit .. => true
  | .bootstrapDone _ => true
  | .bootstrapStart _ => true
  | .submitLoop deferred _ => !deferred.isEmpty
  | .returnDeferred deferred => !deferred.isEmpty
  | _ => false

/-- How often a call will put a node into the ready queue or start its PRE script. -/
def Call.places (n : JobID) : Call → Nat
  | .startNode m _ => if m = n then 1 else 0
  | .submitLoop deferred _ => deferred.occurrences n
  | .returnDeferred deferred => deferred.occurrences n
  | _ => 0

def placesIn (calls : List Call) (n : JobID) : Nat := (calls.map (Call.places n)).sum

@[simp] theorem placesIn_nil (n : JobID) : placesIn [] n = 0 := rfl

@[simp] theorem placesIn_cons (call : Call) (calls : List Call) (n : JobID) :
    placesIn (call :: calls) n = call.places n + placesIn calls n := rfl

@[simp] theorem placesIn_append (calls calls' : List Call) (n : JobID) :
    placesIn (calls ++ calls') n = placesIn calls n + placesIn calls' n := by
  simp [placesIn]

variable {n : JobID}

theorem placesIn_eq_zero {calls : List Call} (h : ∀ call ∈ calls, call.places n = 0) :
    placesIn calls n = 0 := by
  induction calls with
  | nil => rfl
  | cons call calls ih =>
    rw [placesIn_cons,h call mem_cons_self,
      ih fun call hcall => h call (mem_cons_of_mem _ hcall)]

def Call.owed : Call → Bool
  | .releaseChild .. => true
  | .recordSubmit .. => true
  | .bootstrapDone _ => true
  | .bootstrapStart _ => true
  | _ => false

private theorem places_eq_zero {call : Call} (h : call.moves = false)
    (n : JobID) : call.places n = 0 := by
  cases call with
  | submitLoop deferred _ | returnDeferred deferred =>
    have hnil : deferred = [] := by simpa [Call.moves] using h
    rw [hnil]
    rfl
  | startNode => simp [Call.moves] at h
  | _ => rfl

theorem placesIn_filter (calls : List Call) (n : JobID) :
    placesIn (calls.filter Call.moves) n = placesIn calls n := by
  induction calls with
  | nil => rfl
  | cons call calls ih =>
    rw [filter_cons]
    split
    · rw [placesIn_cons,ih,placesIn_cons]
    · next h =>
      rw [ih,placesIn_cons,places_eq_zero (by simpa using h),Nat.zero_add]

theorem owed_filter (calls : List Call) :
    (calls.filter Call.moves).filter Call.owed = calls.filter Call.owed := by
  rw [List.filter_filter]
  congr 1
  funext call
  cases call <;> simp [Call.owed,Call.moves]

open View in
def callsOf (n : JobID) (children : OrderedSet JobID) : Fate → List Call
  | .restarted => [.startNode n true]
  | .finished => children.elems.map (Call.releaseChild false n)
  | _ => []

namespace Dag

theorem view_modify (d : Dag) (n : JobID) (f : Job → Job) :
    (d.modify n f).view = d.view.setNode n (f (d.jobs n)).view := by
  have h : (fun m => (update d.jobs n (f (d.jobs n)) m).view) =
      update (fun m => (d.jobs m).view) n (f (d.jobs n)).view := by
    funext m
    by_cases hm : m = n
    · simp [hm]
    · simp [hm]
  exact congrArg (fun node => { d.view with node := node }) h

theorem view_modify_quiet (d : Dag) (n : JobID) {f : Job → Job}
    (h : (f (d.jobs n)).view = (d.jobs n).view) : (d.modify n f).view = d.view := by
  rw [view_modify,h]
  exact congrArg (fun node => { d.view with node := node }) (update_eq_self n _)

@[simp] theorem modify_jobs_self (d : Dag) (n : JobID) (f : Job → Job) :
    (d.modify n f).jobs n = f (d.jobs n) := update_self n _ _

@[simp] theorem setStatus_jobs_self (d : Dag) (n : JobID) (status : Status) :
    (d.setStatus n status).jobs n = { d.jobs n with status := status } :=
  update_self n _ _

@[simp] theorem view_setScriptQ (d : Dag) (post : Bool) (q : ScriptQ) :
    (d.setScriptQ post q).view = d.view := by
  cases post <;> rfl

@[simp] theorem jobs_setScriptQ (d : Dag) (post : Bool) (q : ScriptQ) :
    (d.setScriptQ post q).jobs = d.jobs := by
  cases post <;> rfl

private theorem occurrences_perm {q q' : PriorityList} (h : q.Perm q') :
    PriorityList.occurrences q = PriorityList.occurrences q' := by
  funext n
  exact h.countP_eq _

theorem occurrences_add (first : Bool) (n : JobID) (prio : Int) (q : PriorityList) :
    PriorityList.occurrences (q.add first n prio) =
      update q.occurrences n (q.occurrences n + 1) := by
  rw [occurrences_perm (PriorityList.add_perm first n prio q)]
  funext m
  by_cases hm : m = n
  · simp [PriorityList.occurrences,hm]
  · simp [PriorityList.occurrences,hm,Ne.symm hm]

private theorem view_scriptRun (o : Options) (a : Answer) (post : Bool) (n : JobID) (d : Dag) :
    (d.scriptRun o a post n).1.view = d.view ∧ (d.scriptRun o a post n).1.jobs = d.jobs := by
  unfold scriptRun
  dsimp only
  split
  · simp
  · split
    · simp
    · exact ⟨rfl,rfl⟩

private theorem calls_scriptRun (o : Options) (a : Answer) (post : Bool) (n : JobID) (d : Dag) :
    (d.scriptRun o a post n).2.1.filter Call.moves = [] := by
  unfold scriptRun
  dsimp only
  split
  · rfl
  · split
    · rfl
    · cases post <;> rfl

theorem view_runWaitingScript (o : Options) (a : Answer) (post : Bool) (d : Dag) :
    (d.runWaitingScript o a post).1.view = d.view ∧
      (d.runWaitingScript o a post).2.1.filter Call.moves = [] := by
  unfold runWaitingScript
  split
  · exact ⟨rfl,rfl⟩
  · rw [(view_scriptRun o a post _ _).1,view_setScriptQ]
    exact ⟨rfl,calls_scriptRun o a post _ _⟩

theorem view_unmonitorLogFile (n : JobID) (d : Dag) : (d.unmonitorLogFile n).view = d.view :=
  view_modify_quiet d n rfl

private theorem view_fixPriority (n : JobID) (d : Dag) : (d.fixPriority n).view = d.view := by
  apply view_modify_quiet
  generalize (d.jobs n).parents.elems = ps
  generalize d.jobs n = j
  induction ps generalizing j with
  | nil => rfl
  | cons p ps ih =>
    rw [foldl_cons,ih]
    unfold raisePriority
    split <;> rfl

theorem view_processIsIdleEvent (n : JobID) (d : Dag) : (d.processIsIdleEvent n).view = d.view := by
  unfold processIsIdleEvent
  split
  · rfl
  · exact view_modify_quiet _ n rfl

theorem view_processNotIdleEvent (n : JobID) (d : Dag) :
    (d.processNotIdleEvent n).view = d.view := by
  unfold processNotIdleEvent
  split
  · exact view_modify_quiet _ n rfl
  · rfl

theorem view_processHeldEvent (n : JobID) (d : Dag) : (d.processHeldEvent n).view = d.view :=
  view_modify_quiet _ n rfl

theorem view_processReleasedEvent (n : JobID) (d : Dag) :
    (d.processReleasedEvent n).view = d.view :=
  view_modify_quiet _ n rfl

theorem view_regenerateSubmitFile (n : JobID) (d : Dag) :
    (d.regenerateSubmitFile n).view = d.view := by
  have hswap (d : Dag) : (d.swapPriorities n).view = d.view := view_modify_quiet _ n rfl
  unfold regenerateSubmitFile
  dsimp only
  split
  · split
    · rw [hswap,hswap]
    · exact hswap d
  · split
    · exact hswap d
    · rfl

/-- A handler has taken a node to a new place, starting from the view `v`. -/
def Settled (v : View) (n : JobID) (fate : View.Fate) (retries : Nat) (r : Dag × List Call) :
    Prop :=
  r.1.view = v.settle n fate retries ∧
    r.2.filter Call.moves = callsOf n (v.node n).children fate

private theorem settle_setNode (v : View) (n : JobID) (status : Status) (k : Nat) (fate : View.Fate)
    (retries : Nat) :
    (v.setNode n { v.node n with status := status, retries := k }).settle n fate retries =
      v.settle n fate retries := by
  cases fate <;> simp only [View.settle,View.setNode_setNode,View.setNode_node_self] <;> rfl

theorem view_setStatus (d : Dag) (n : JobID) (status : Status) :
    (d.setStatus n status).view = d.view.setNode n { d.view.node n with status := status } :=
  view_modify d n _

variable {d : Dag}

theorem enqueueReady_settles (first : Bool) (h : (d.jobs n).status = .ready) :
    Settled d.view n .queued (d.jobs n).retries (enqueueReady first n d,[]) := by
  refine ⟨?_,rfl⟩
  have hx : ({ d.view.node n with status := .ready, retries := (d.jobs n).retries } : NodeView) =
      d.view.node n := by rw [← h]; rfl
  have hv : (enqueueReady first n d).view = { d.view with
      ready := (PriorityList.add first n (-(d.jobs n).nodePriority) d.readyQ).occurrences } := rfl
  dsimp only [View.settle,View.Fate.status]
  rw [hv,occurrences_add,hx,View.setNode_eq_self]
  rfl

variable {r : Dag × List Call}

theorem startNode_settles {o : Options} {a : Answer} {isRetry : Bool}
    (h : d.startNode o a n isRetry = some r) :
    (d.jobs n).canSubmit = true ∧ ∃ fate, (fate = .prerun ∨ fate = .queued) ∧
      Settled d.view n fate (d.jobs n).retries r := by
  unfold startNode at h
  split at h
  · simp at h
  · next hcan =>
    have hcan : (d.jobs n).canSubmit = true := by simpa using hcan
    have hready : (d.jobs n).status = .ready := (Job.canSubmit_iff.mp hcan).2
    refine ⟨hcan,?_⟩
    split at h
    · obtain rfl := some.inj h
      refine ⟨.prerun,.inl rfl,?_,calls_scriptRun ..⟩
      dsimp only
      rw [(view_scriptRun ..).1]
      change { (d.setStatus n .prerun).view with preRun := d.view.preRun + 1 } = _
      rw [view_setStatus]
      rfl
    · obtain rfl := some.inj h
      refine ⟨.queued,.inr rfl,?_⟩
      have hs : ((d.fixPriority n).jobs n).view = (d.jobs n).view :=
        congrFun (congrArg View.node (view_fixPriority n d)) n
      have hq := enqueueReady_settles ((isRetry && o.retryNodeFirst) || o.submitDepthFirst)
        (n := n) (d := d.fixPriority n) ((congrArg NodeView.status hs).trans hready)
      have hr : ((d.fixPriority n).jobs n).retries = (d.jobs n).retries :=
        congrArg NodeView.retries hs
      rw [view_fixPriority,hr] at hq
      exact hq

private theorem countAsDone_view {d d' : Dag} (h : d.countAsDone n = some d') :
    d'.view = { d.view.setNode n { d.view.node n with countedAsDone := true } with
      nodesDone := d.view.nodesDone + if (d.view.node n).countedAsDone then 0 else 1 } := by
  unfold countAsDone at h
  split at h
  · next hc =>
    obtain rfl := some.inj h
    have hc : (d.view.node n).countedAsDone = true := hc
    have hx : ({ d.view.node n with countedAsDone := true } : NodeView) = d.view.node n := by
      rw [← hc]
    rw [hx,View.setNode_eq_self,if_pos hc,Int.add_zero]
  · next hc =>
    have hc : ¬(d.view.node n).countedAsDone = true := hc
    dsimp only at h
    split at h
    · obtain rfl := some.inj h
      rw [view_modify,if_neg hc]
      rfl
    · simp at h

theorem terminateJob_view {bootstrap : Bool} (h : d.terminateJob bootstrap n = some r) :
    r.1.view = d.view.settle n .finished (d.jobs n).retries ∧
      r.2 = (d.jobs n).children.elems.map (Call.releaseChild bootstrap n) := by
  unfold terminateJob at h
  obtain ⟨d1,hd1,rfl⟩ := Option.map_eq_some_iff.mp h
  generalize hd' : (if d.finalJob = some n then { d with runningFinalNode := false } else d) = d'
    at hd1
  have hview : d'.view = d.view := by
    split at hd' <;> subst hd' <;> rfl
  have hv := countAsDone_view hd1
  rw [view_setStatus,hview,View.setNode_setNode,View.setNode_node_self] at hv
  have hn : (d1.jobs n).children = (d.jobs n).children := by
    have hnode := congrFun (congrArg View.node hv) n
    exact (congrArg NodeView.children hnode).trans (by simp [View.setNode]; rfl)
  refine ⟨hv.trans rfl,?_⟩
  dsimp only
  rw [hn]

theorem terminateJob_settles (h : d.terminateJob false n = some r) :
    Settled d.view n .finished (d.jobs n).retries r := by
  obtain ⟨hv,hc⟩ := terminateJob_view h
  refine ⟨hv,?_⟩
  rw [hc,List.filter_eq_self.mpr]
  · rfl
  · intro c hc
    obtain ⟨m,_,rfl⟩ := List.mem_map.mp hc
    rfl

theorem nodeFailed_settles (h : (d.jobs n).status = .error) :
    Settled d.view n .failed (d.jobs n).retries (d.nodeFailed,[]) := by
  have hx : ({ d.view.node n with status := .error, retries := (d.jobs n).retries } : NodeView) =
      d.view.node n := by rw [← h]; rfl
  refine ⟨?_,rfl⟩
  dsimp only [View.settle,View.Fate.status]
  rw [hx,View.setNode_eq_self]
  rfl

theorem restartNode_settles (h : d.restartNode n = some r) : (d.jobs n).status = .error ∧
      (((d.jobs n).retryAbortVal = some (d.jobs n).retval ∧
          Settled d.view n .failed (d.jobs n).retries r) ∨
        ((d.jobs n).retryAbortVal ≠ some (d.jobs n).retval ∧
          (d.jobs n).retries < (d.jobs n).retryMax ∧
          Settled d.view n .restarted ((d.jobs n).retries + 1) r)) := by
  unfold restartNode at h
  split at h
  · simp at h
  · next hs =>
    have hs : (d.jobs n).status = .error := not_not.mp hs
    refine ⟨hs,?_⟩
    split at h
    · next hu =>
      obtain rfl := some.inj h
      exact .inl ⟨hu,nodeFailed_settles hs⟩
    · next hu =>
      split at h
      · next hr =>
        obtain rfl := some.inj h
        refine .inr ⟨hu,hr,?_,rfl⟩
        exact view_modify d n _
      · simp at h

private theorem retryOrFail_settles (hs : (d.jobs n).status = .error)
    (h : d.retryOrFail n = some r) :
    ∃ fate k, (fate = .failed ∨ fate = .restarted) ∧ Settled d.view n fate k r := by
  unfold retryOrFail at h
  split at h
  · rcases (restartNode_settles h).2 with ⟨_,hf⟩ | ⟨_,_,hf⟩
    · exact ⟨_,_,.inl rfl,hf⟩
    · exact ⟨_,_,.inr rfl,hf⟩
  · obtain rfl := some.inj h
    exact ⟨_,_,.inl rfl,nodeFailed_settles hs⟩

theorem monitorLogFile_view (success : Bool) (n : JobID) (d : Dag) :
    ((monitorLogFile success n d).1 = true ∧ (monitorLogFile success n d).2.view = d.view) ∨
      ((monitorLogFile success n d).1 = false ∧ success = false ∧
        (monitorLogFile success n d).2.view =
          d.view.setNode n { d.view.node n with status := .error }) := by
  unfold monitorLogFile
  split
  · exact .inl ⟨rfl,rfl⟩
  · split
    · exact .inl ⟨rfl,view_modify_quiet _ n rfl⟩
    · next hs =>
      refine .inr ⟨rfl,by simpa using hs,?_⟩
      dsimp only
      unfold logMonitorFailed
      split
      · next he =>
        have hx : ({ d.view.node n with status := .error } : NodeView) = d.view.node n := by
          rw [← he]; rfl
        rw [hx,View.setNode_eq_self]
      · exact view_modify d n _

theorem runPostScript_settles (o : Options) (a : Answer) {ignoreStatus : Bool} {status : Int}
    (hpost : (d.jobs n).scriptPost = true)
    (hrun : ignoreStatus = true ∨ status = 0) :
    ∃ fate, (fate = .postrun ∨ (fate = .lost ∧ a.postMonitored = false)) ∧
      Settled d.view n fate (d.jobs n).retries (d.runPostScript o a ignoreStatus status n) := by
  have hcond : ¬((!ignoreStatus && status != 0) || !(d.jobs n).scriptPost) = true := by
    rcases hrun with h | h <;> simp [h,hpost]
  unfold runPostScript
  rw [if_neg hcond]
  have hst := view_setStatus d n .postrun
  generalize hm : monitorLogFile a.postMonitored n (d.setStatus n .postrun) = m
  have hmon := monitorLogFile_view a.postMonitored n (d.setStatus n .postrun)
  rw [hm] at hmon
  obtain ⟨ok,d1⟩ := m
  rcases hmon with ⟨rfl,hv⟩ | ⟨rfl,hs,hv⟩
  · refine ⟨.postrun,.inl rfl,?_,calls_scriptRun ..⟩
    dsimp only
    rw [(view_scriptRun ..).1]
    change { d1.view with postRun := d1.view.postRun + 1 } = _
    rw [hv,hst]
    rfl
  · refine ⟨.lost,.inr ⟨rfl,hs⟩,?_,rfl⟩
    dsimp only
    rw [hv,hst,View.setNode_setNode,View.setNode_node_self]
    rfl

variable {fate : View.Fate}

theorem Settled.append {v : View} {k : Nat}
    (h : Settled v n fate k r) {calls : List Call} (hc : calls.filter Call.moves = []) :
    Settled v n fate k (r.1,r.2 ++ calls) := by
  refine ⟨h.1,?_⟩
  rw [filter_append,hc,append_nil]
  exact h.2

theorem Settled.of_setNode {v w : View} {k : Nat} (status : Status) (retries : Nat)
    (hw : w = v.setNode n { v.node n with status := status, retries := retries })
    (h : Settled w n fate k r) : Settled v n fate k r := by
  have hs := settle_setNode v n status retries fate k
  rw [hw,Settled,View.setNode_node_self] at h
  exact ⟨h.1.trans hs,h.2⟩

theorem Settled.of_view {v w : View} {k : Nat} (status : Status)
    (hw : w = v.setNode n { v.node n with status := status }) (h : Settled w n fate k r) :
    Settled v n fate k r :=
  h.of_setNode status (v.node n).retries hw

private theorem preScriptFailed_settles {o : Options} {a : Answer} {retval : Int}
    (hs : (d.jobs n).status = .error)
    (h : d.preScriptFailed o a n retval = some r) :
    ∃ fate k, fate ≠ .prerun ∧ fate ≠ .queued ∧ (fate = .lost → a.postMonitored = false) ∧
      Settled d.view n fate k r := by
  unfold preScriptFailed at h
  split at h
  · have ht := terminateJob_settles h
    rw [view_modify_quiet d n rfl] at ht
    exact ⟨_,_,by simp,by simp,by simp,ht⟩
  · split at h
    · next hrun =>
      simp only [Bool.and_eq_true] at hrun
      obtain rfl := some.inj h
      have hpost : o.alwaysRunPost = true ∨ retval = 0 := .inl hrun.1
      obtain ⟨fate,hfate,hset⟩ := runPostScript_settles o a hrun.2 hpost
      rcases hfate with rfl | ⟨rfl,hm⟩
      · exact ⟨_,_,by simp,by simp,by simp,hset⟩
      · exact ⟨_,_,by simp,by simp,fun _ => hm,hset⟩
    · obtain ⟨fate,k,hfate,hset⟩ := retryOrFail_settles hs h
      rcases hfate with rfl | rfl
      · exact ⟨_,_,by simp,by simp,by simp,hset⟩
      · exact ⟨_,_,by simp,by simp,by simp,hset⟩

theorem preScriptReaper_settles {o : Options} {a : Answer} {status : WaitStatus}
    (h : d.preScriptReaper o a n status = some r) :
    (d.jobs n).status = .prerun ∧ ∃ fate k, fate ≠ .prerun ∧
      (fate = .lost → a.postMonitored = false) ∧
      Settled { d.view with preRun := d.view.preRun - 1 } n fate k r := by
  unfold preScriptReaper at h
  split at h
  · simp at h
  · next hs =>
    refine ⟨not_not.mp hs,?_⟩
    dsimp only at h
    obtain ⟨r',hr',rfl⟩ := Option.map_eq_some_iff.mp h
    -- the counter is already down, the node still carries its old status
    have hbase (st : Status) : ((({ d
      with preRunNodeCount := d.preRunNodeCount - 1 } : Dag).modify n
        fun j => { j with retval := preRetval status }).setStatus n st).view =
        ({ d.view with preRun := d.view.preRun - 1 } : View).setNode n
          { d.view.node n with status := st } := by
      rw [view_setStatus,view_modify_quiet _ n rfl]
      rfl
    split at hr'
    · obtain rfl := some.inj hr'
      have hq := enqueueReady_settles o.submitDepthFirst (n := n)
        (d := (({ d with preRunNodeCount := d.preRunNodeCount - 1 } : Dag).modify n
          fun j => { j with retval := preRetval status }).setStatus n .ready) (by simp)
      exact ⟨_,_,by simp,by simp,(hq.of_view _ (hbase .ready)).append rfl⟩
    · obtain ⟨fate,k,h1,_,h3,hset⟩ := preScriptFailed_settles (by simp) hr'
      exact ⟨fate,k,h1,h3,(hset.of_view _ (hbase .error)).append rfl⟩

theorem processPostTermEvent_settles {t : Termination} (h : d.processPostTermEvent n t = some r) :
    (d.jobs n).status = .postrun ∧ ∃ fate k,
      (fate = .failed ∨ fate = .restarted ∨ fate = .finished) ∧
      Settled { d.view with postRun := d.view.postRun - 1 } n fate k r := by
  unfold processPostTermEvent at h
  dsimp only at h
  split at h
  · simp at h
  · next hs =>
    have hs : (d.jobs n).status = .postrun := by
      simpa [unmonitorLogFile] using hs
    refine ⟨hs,?_⟩
    obtain ⟨r',hr',rfl⟩ := Option.map_eq_some_iff.mp h
    have hbase : ({ d.unmonitorLogFile n with
        postRunNodeCount := (d.unmonitorLogFile n).postRunNodeCount - 1 } : Dag).view =
        { d.view with postRun := d.view.postRun - 1 } := by
      change ({ (d.unmonitorLogFile n).view with postRun := d.view.postRun - 1 } : View) = _
      rw [view_unmonitorLogFile]
    split at hr'
    · obtain ⟨fate,k,hfate,hset⟩ := retryOrFail_settles (by simp) hr'
      have hset := hset.of_view (v := { d.view with postRun := d.view.postRun - 1 }) .error (by
        rw [view_modify,hbase]
        simp [unmonitorLogFile]
        rfl)
      rcases hfate with rfl | rfl
      · exact ⟨_,_,.inl rfl,hset.append rfl⟩
      · exact ⟨_,_,.inr (.inl rfl),hset.append rfl⟩
    · have hset := terminateJob_settles hr'
      rw [view_modify_quiet _ n rfl,hbase] at hset
      exact ⟨_,_,.inr (.inr rfl),hset.append rfl⟩

end Dag

end Condor.Dagman
