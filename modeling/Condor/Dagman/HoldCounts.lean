import Condor.Dagman.Build
import Condor.Lib.Tally

/-!
# The counts of held procs

What the nodes and the DAG count of the procs on hold, and the functions that leave these counts
alone: all but the handlers of the held, released and aborted events.
-/

namespace Condor.Dagman

open Lib Function Option

namespace Dag

def holdCounts (d : Dag) : Tally JobID := ⟨fun n => (d.jobs n).jobProcsOnHold,d.numHeldJobProcs⟩

variable {f : Job → Job}

private theorem holdCounts_modify (d : Dag) (n : JobID)
    (hf : ∀ j, (f j).jobProcsOnHold = j.jobProcsOnHold) :
    (d.modify n f).holdCounts = d.holdCounts := by
  apply Tally.ext
  · funext m
    by_cases hm : m = n
    · rw [hm]
      show ((d.modify n f).jobs n).jobProcsOnHold = _
      rw [modify_jobs_self,hf]
      rfl
    · exact congrArg Job.jobProcsOnHold (update_of_ne hm _ _)
  · rfl

theorem holdCounts_modify_trans {d d' : Dag} (h : d'.holdCounts = d.holdCounts) (n : JobID)
    (hf : ∀ j, (f j).jobProcsOnHold = j.jobProcsOnHold) :
    (d'.modify n f).holdCounts = d.holdCounts := (holdCounts_modify d' n hf).trans h

theorem holdCounts_setStatus (d : Dag) (n : JobID) (status : Status) :
    (d.setStatus n status).holdCounts = d.holdCounts := holdCounts_modify d n fun _ => rfl

theorem holdCounts_setScriptQ (d : Dag) (post : Bool) (q : ScriptQ) :
    (d.setScriptQ post q).holdCounts = d.holdCounts := by
  rw [setScriptQ]
  split <;> rfl

def KeepsHolds {β : Type} (d : Dag) (r : Option (Dag × β)) : Prop :=
  ∀ x, r = some x → x.1.holdCounts = d.holdCounts

variable {β : Type}

theorem KeepsHolds.some {d d' : Dag} {b : β} (h : d'.holdCounts = d.holdCounts) :
    d.KeepsHolds (some (d',b)) := by
  intro x hx
  rw [← some.inj hx]
  exact h

variable {d : Dag}

theorem KeepsHolds.none : d.KeepsHolds (none : Option (Dag × β)) := by
  intro x hx
  cases hx

theorem KeepsHolds.of_eq {d d' : Dag} {r : Option (Dag × β)} (h : d'.KeepsHolds r)
    (he : d'.holdCounts = d.holdCounts) : d.KeepsHolds r := fun x hx => (h x hx).trans he

theorem KeepsHolds.map {β γ : Type} {r : Option (Dag × β)} {f : Dag × β → Dag × γ}
    (h : d.KeepsHolds r) (hf : ∀ x, (f x).1.holdCounts = x.1.holdCounts) :
    d.KeepsHolds (r.map f) := by
  intro x hx
  obtain ⟨y,hy,rfl⟩ := Option.map_eq_some_iff.mp hx
  exact (hf y).trans (h y hy)

def KeepsHoldsOnly (d : Dag) (r : Option Dag) : Prop :=
  ∀ d', r = some d' → d'.holdCounts = d.holdCounts

theorem KeepsHoldsOnly.bind {r : Option Dag} {f : Dag → Option (Dag × β)}
    (h : d.KeepsHoldsOnly r) (hf : ∀ d', KeepsHolds d' (f d')) : d.KeepsHolds (r.bind f) := by
  intro x hx
  obtain ⟨d',hd,hx⟩ := Option.bind_eq_some_iff.mp hx
  exact (hf d' x hx).trans (h d' hd)

theorem KeepsHoldsOnly.map {r : Option Dag} {f : Dag → Dag × β}
    (h : d.KeepsHoldsOnly r) (hf : ∀ d', (f d').1.holdCounts = d'.holdCounts) :
    d.KeepsHolds (r.map f) := by
  intro x hx
  obtain ⟨d',hd,rfl⟩ := Option.map_eq_some_iff.mp hx
  exact (hf d').trans (h d' hd)

private theorem holdCounts_scriptRun (o : Options) (a : Answer) (post : Bool) (n : JobID)
    (d : Dag) :
    (scriptRun o a post n d).1.holdCounts = d.holdCounts := by
  rw [scriptRun]
  split
  · exact holdCounts_setScriptQ _ _ _
  · split
    · exact holdCounts_setScriptQ _ _ _
    · rfl

private theorem holdCounts_runWaitingScript (o : Options) (a : Answer) (post : Bool) (d : Dag) :
    (runWaitingScript o a post d).1.holdCounts = d.holdCounts := by
  rw [runWaitingScript]
  split
  · rfl
  · rw [holdCounts_scriptRun,holdCounts_setScriptQ]

private theorem holdCounts_monitorLogFile (success : Bool) (n : JobID) (d : Dag) :
    (monitorLogFile success n d).2.holdCounts = d.holdCounts := by
  rw [monitorLogFile]
  split
  · rfl
  · split
    · dsimp only
      exact holdCounts_modify d n fun _ => rfl
    · rw [logMonitorFailed]
      dsimp only
      split
      · rfl
      · exact holdCounts_modify d n fun _ => rfl

private theorem holdCounts_unmonitorLogFile (n : JobID) (d : Dag) :
    (d.unmonitorLogFile n).holdCounts = d.holdCounts := holdCounts_modify d n fun _ => rfl

private theorem holdCounts_runPostScript (o : Options) (a : Answer) (ignoreStatus : Bool)
    (status : Int)
    (n : JobID) (d : Dag) :
    (runPostScript o a ignoreStatus status n d).1.holdCounts = d.holdCounts := by
  rw [runPostScript]
  split
  · rfl
  · have hmonitor := holdCounts_monitorLogFile a.postMonitored n (d.setStatus n .postrun)
    rw [holdCounts_setStatus] at hmonitor
    split
    · next heq =>
      rw [heq] at hmonitor
      exact hmonitor
    · next heq =>
      rw [heq] at hmonitor
      dsimp only
      rw [holdCounts_scriptRun]
      exact hmonitor

private theorem foldl_raisePriority_onHold (d : Dag) (ps : List JobID) (j : Job) :
    (ps.foldl (fun j p => raisePriority j (d.jobs p)) j).jobProcsOnHold = j.jobProcsOnHold := by
  induction ps generalizing j with
  | nil => rfl
  | cons p ps ih =>
    rw [List.foldl_cons,ih,raisePriority]
    split <;> rfl

private theorem holdCounts_fixPriority (n : JobID) (d : Dag) :
    (d.fixPriority n).holdCounts = d.holdCounts :=
  holdCounts_modify d n fun j => foldl_raisePriority_onHold d j.parents.elems j

private theorem keepsHolds_startNode (o : Options) (a : Answer) (n : JobID) (isRetry : Bool)
    (d : Dag) :
    d.KeepsHolds (d.startNode o a n isRetry) := by
  rw [startNode]
  split
  · exact .none
  · split
    · apply KeepsHolds.some
      rw [holdCounts_scriptRun]
      exact holdCounts_setStatus d n .prerun
    · exact .some (holdCounts_fixPriority n d)

private theorem keepsHolds_countAsDone (n : JobID) (d : Dag) : d.KeepsHoldsOnly
    (d.countAsDone n) := by
  intro d' h
  rw [countAsDone] at h
  split at h
  · rw [some.inj h]
  · dsimp only at h
    split at h
    · rw [← some.inj h]
      exact holdCounts_modify _ n fun _ => rfl
    · cases h

private theorem keepsHolds_terminateJob (bootstrap : Bool) (n : JobID) (d : Dag) :
    d.KeepsHolds (d.terminateJob bootstrap n) := by
  rw [terminateJob]
  apply KeepsHolds.of_eq ((keepsHolds_countAsDone n _).map fun x => rfl)
  rw [holdCounts_setStatus]
  split <;> rfl

private theorem keepsHolds_releaseChild (bootstrap : Bool) (parent child : JobID) (d : Dag) :
    d.KeepsHolds (d.releaseChild bootstrap parent child) := by
  rw [releaseChild]
  split
  · dsimp only
    split <;> exact .some (holdCounts_modify d child fun _ => rfl)
  · exact .none

private theorem keepsHolds_restartNode (n : JobID) (d : Dag) : d.KeepsHolds (d.restartNode n) := by
  rw [restartNode]
  split
  · exact .none
  · split
    · exact .some rfl
    · split
      · exact .some (holdCounts_modify d n fun _ => rfl)
      · exact .none

private theorem keepsHolds_retryOrFail (n : JobID) (d : Dag) : d.KeepsHolds (d.retryOrFail n) := by
  rw [retryOrFail]
  split
  · exact keepsHolds_restartNode n d
  · exact .some rfl

theorem keepsHolds_startFinalNode (d : Dag) : d.KeepsHolds d.startFinalNode := by
  rw [startFinalNode]
  split
  · exact .none
  · split
    · exact .some (holdCounts_setStatus _ _ _)
    · exact .none

private theorem keepsHolds_checkForDagAbort (n : JobID) (d : Dag) :
    d.KeepsHolds (d.checkForDagAbort n) := by
  rw [checkForDagAbort]
  split
  · exact keepsHolds_startFinalNode d
  · exact .some rfl

private theorem keepsHolds_preScriptReaper (o : Options) (a : Answer) (n : JobID)
    (status : WaitStatus)
    (d : Dag) : d.KeepsHolds (d.preScriptReaper o a n status) := by
  rw [preScriptReaper]
  split
  · exact .none
  · dsimp only
    refine KeepsHolds.map ?_ fun x => rfl
    split
    · exact .some ((holdCounts_setStatus _ _ _).trans (holdCounts_modify _ n fun _ => rfl))
    · have hbase : ((({ d with preRunNodeCount := d.preRunNodeCount - 1 }).modify n fun j =>
          { j with retval := preRetval status }).setStatus n .error).holdCounts = d.holdCounts :=
        (holdCounts_setStatus _ _ _).trans (holdCounts_modify _ n fun _ => rfl)
      apply KeepsHolds.of_eq _ hbase
      rw [preScriptFailed]
      split
      · exact (keepsHolds_terminateJob false n _).of_eq (holdCounts_modify _ n fun _ => rfl)
      · split
        · exact .some (holdCounts_runPostScript _ _ _ _ _ _)
        · exact keepsHolds_retryOrFail n _

theorem keepsHolds_processPostTermEvent (n : JobID) (t : Termination) (d : Dag) :
    d.KeepsHolds (d.processPostTermEvent n t) := by
  rw [processPostTermEvent]
  dsimp only
  split
  · exact .none
  · refine KeepsHolds.map ?_ fun x => rfl
    have hbase : ({ d.unmonitorLogFile n with
        postRunNodeCount := (d.unmonitorLogFile n).postRunNodeCount - 1 } : Dag).holdCounts =
          d.holdCounts := holdCounts_unmonitorLogFile n d
    split
    · exact (keepsHolds_retryOrFail n _).of_eq (holdCounts_modify_trans hbase n fun _ => rfl)
    · exact (keepsHolds_terminateJob false n _).of_eq
        (holdCounts_modify_trans hbase n fun _ => rfl)

theorem keepsHolds_postScriptReaper (a : Answer) (n : JobID) (status : WaitStatus) (d : Dag) :
    d.KeepsHolds (d.postScriptReaper a n status) := by
  rw [postScriptReaper]
  split
  · exact .none
  · split
    · exact (keepsHolds_processPostTermEvent n _ d).map fun x => rfl
    · split
      · exact .some rfl
      · exact (keepsHolds_startFinalNode d).map fun x => rfl

private theorem keepsHolds_updateJobCounts (n : JobID) (change : Int) (d : Dag) :
    d.KeepsHoldsOnly (d.updateJobCounts n change) := by
  intro d' h
  rw [updateJobCounts] at h
  dsimp only at h
  split at h
  · cases h
  · split at h
    · rw [← some.inj h]
      rfl
    · split at h
      · cases h
      · rw [← some.inj h]
        rfl

private theorem keepsHolds_decrementJobCounts (n : JobID) (d : Dag) :
    d.KeepsHoldsOnly (d.decrementJobCounts n) := by
  intro d' h
  rw [decrementJobCounts] at h
  split at h
  · cases h
  · split at h
    · exact (keepsHolds_updateJobCounts n (-1) _ d' h).trans (holdCounts_modify d n fun _ => rfl)
    · rw [← some.inj h]
      exact holdCounts_modify d n fun _ => rfl

private theorem keepsHolds_processJobProcEnd (o : Options) (a : Answer) (n : JobID) (failed : Bool)
    (d : Dag) : d.KeepsHolds (d.processJobProcEnd o a n failed) := by
  rw [processJobProcEnd]
  generalize hlast : (if (d.jobs n).queuedNodeJobProcs = 0 then d.unmonitorLogFile n else d) = d'
  have hd : d'.holdCounts = d.holdCounts := by
    rw [← hlast]
    split
    · exact holdCounts_unmonitorLogFile n d
    · rfl
  split
  · split
    · exact (keepsHolds_restartNode n d').of_eq hd
    · split <;> exact .some hd
  · split
    · split
      · exact .some ((holdCounts_runPostScript o a _ 0 n d').trans hd)
      · split
        · exact (keepsHolds_terminateJob false n d').of_eq hd
        · exact .some hd
    · exact .some hd

private theorem holdCounts_procFailed (n : JobID) (retval : Int) (d : Dag) :
    (d.procFailed n retval).holdCounts = d.holdCounts := by
  rw [procFailed]
  split
  · rfl
  · exact holdCounts_modify d n fun _ => rfl

theorem keepsHolds_processTerminatedEvent (o : Options) (a : Answer) (n : JobID) (t : Termination)
    (d : Dag) : d.KeepsHolds (d.processTerminatedEvent o a n t) := by
  rw [processTerminatedEvent]
  refine (keepsHolds_decrementJobCounts n d).bind fun d1 => ?_
  dsimp only
  generalize hbooked : (if t.failed = true then d1.procFailed n t.retval
    else if (d1.jobs n).status = .error then d1
    else d1.modify n fun j => { j with retval := 0 }) = d2
  have hd : d2.holdCounts = d1.holdCounts := by
    rw [← hbooked]
    split
    · exact holdCounts_procFailed n t.retval d1
    · split
      · rfl
      · exact holdCounts_modify d1 n fun _ => rfl
  split
  · exact (keepsHolds_startFinalNode d2).of_eq hd
  · exact (keepsHolds_processJobProcEnd o a n t.failed d2).of_eq hd

private theorem holdCounts_change (d : Dag) (n : JobID) (k : Int)
    (hf : ∀ j, (f j).jobProcsOnHold = j.jobProcsOnHold + k) :
    ({ d with numHeldJobProcs := d.numHeldJobProcs + k }.modify n f).holdCounts =
      d.holdCounts.change n k := by
  apply Tally.ext
  · funext m
    by_cases hm : m = n
    · rw [hm,Tally.change_part_self]
      show ((Dag.modify _ n f).jobs n).jobProcsOnHold = _
      rw [modify_jobs_self,hf]
      rfl
    · rw [Tally.change_part_of_ne _ _ hm]
      exact congrArg Job.jobProcsOnHold (update_of_ne hm _ _)
  · rfl

/-- An aborted event takes a proc off the node's count unless the count is zero, no matter which
proc was aborted. -/
theorem holdCounts_processAbortEvent {o : Options} {a : Answer} {n : JobID}
    {r : Dag × List Call} (h : d.processAbortEvent o a n = some r) :
    r.1.holdCounts =
      if (d.jobs n).jobProcsOnHold > 0 then d.holdCounts.change n (-1) else d.holdCounts := by
  rw [processAbortEvent] at h
  obtain ⟨d1,hd,h⟩ := Option.bind_eq_some_iff.mp h
  have hcounts := keepsHolds_decrementJobCounts n d d1 hd
  have hnode : (d1.jobs n).jobProcsOnHold = (d.jobs n).jobProcsOnHold :=
    congrFun (congrArg Tally.part hcounts) n
  have hend := (keepsHolds_processJobProcEnd o a n true _ r h).trans (holdCounts_procFailed _ _ _)
  rw [hend,← hcounts,← hnode]
  split
  · exact holdCounts_change d1 n (-1) fun _ => rfl
  · rfl

theorem holdCounts_processHeldEvent (n : JobID) (d : Dag) :
    (d.processHeldEvent n).holdCounts = d.holdCounts.change n 1 :=
  holdCounts_change d n 1 fun _ => rfl

theorem holdCounts_processReleasedEvent (n : JobID) (d : Dag) :
    (d.processReleasedEvent n).holdCounts = d.holdCounts.change n (-1) :=
  holdCounts_change d n (-1) fun _ => rfl

theorem holdCounts_processIsIdleEvent (n : JobID) (d : Dag) :
    (d.processIsIdleEvent n).holdCounts = d.holdCounts := by
  rw [processIsIdleEvent]
  split
  · rfl
  · exact holdCounts_modify _ n fun _ => rfl

theorem holdCounts_processNotIdleEvent (n : JobID) (d : Dag) :
    (d.processNotIdleEvent n).holdCounts = d.holdCounts := by
  rw [processNotIdleEvent]
  split
  · exact holdCounts_modify _ n fun _ => rfl
  · rfl

theorem holdCounts_addNode (spec : NodeSpec) (h : d.holdCounts = .zero) :
    (d.addNode spec).holdCounts = .zero := by
  have hnode (m : JobID) : (d.jobs m).jobProcsOnHold = 0 :=
    congrFun (congrArg Tally.part h) m
  have htotal : d.numHeldJobProcs = 0 := congrArg Tally.total h
  rw [addNode]
  split
  · exact h
  · apply Tally.ext
    · funext m
      show (update d.jobs d.numNodes spec.toJob m).jobProcsOnHold = 0
      by_cases hm : m = d.numNodes
      · rw [hm,update_self]
        rfl
      · rw [update_of_ne hm]
        exact hnode m
    · exact htotal

private theorem keepsHolds_addParent (parent child : JobID) (d : Dag) :
    d.KeepsHolds (d.addParent parent child) := by
  rw [addParent]
  split
  · exact .some rfl
  · split
    · exact .some rfl
    · split
      · exact .some (holdCounts_modify d child fun _ => rfl)
      · split
        · exact .none
        · exact .some (holdCounts_modify d child fun _ => rfl)

theorem keepsHolds_addDependency (parent child : JobID) (d : Dag) :
    d.KeepsHolds (d.addDependency parent child) := by
  rw [addDependency]
  split
  · exact .some rfl
  · generalize hchild : (if child ∈ (d.jobs parent).children then d
      else d.modify parent fun j => { j with children := j.children.insert child }) = d1
    have hd1 : d1.holdCounts = d.holdCounts := by
      rw [← hchild]
      split
      · rfl
      · exact holdCounts_modify d parent fun _ => rfl
    refine ((keepsHolds_addParent parent child d1).of_eq hd1).map fun x => ?_
    split
    · rfl
    · dsimp only
      exact holdCounts_modify x.1 parent fun _ => rfl

theorem keepsHolds_removeDependency (parent child : JobID) (d : Dag) :
    d.KeepsHolds (d.removeDependency parent child) := by
  rw [removeDependency]
  split
  · exact .some rfl
  · split
    · exact .none
    · refine .some ((holdCounts_modify _ child ?_).trans ?_)
      · intro j
        rfl
      · exact holdCounts_modify d parent fun _ => rfl

theorem keepsHolds_recordSubmit (n : JobID) (key : EventKey) (sane : Bool) (d : Dag) :
    d.KeepsHoldsOnly (d.recordSubmit n key sane) := by
  intro d' h
  rw [recordSubmit] at h
  split at h
  · cases h
  · dsimp only at h
    obtain ⟨d1,hd1,h⟩ := Option.bind_eq_some_iff.mp h
    have hnamed : (d.modify n fun j => { j with condorID := some key }).holdCounts =
        d.holdCounts := holdCounts_modify d n fun _ => rfl
    have hassigned : d1.holdCounts = d.holdCounts := by
      split at hd1
      · rw [← some.inj hd1]
        exact hnamed
      · split at hd1
        · rw [← some.inj hd1]
          exact hnamed
        · cases hd1
    split at h
    · cases h
    · rw [← some.inj h,holdCounts_processIsIdleEvent,← hassigned]
      split
      · exact holdCounts_modify d1 n fun _ => rfl
      · rfl

private theorem holdCounts_swapPriorities (n : JobID) (d : Dag) :
    (d.swapPriorities n).holdCounts = d.holdCounts := by
  rw [swapPriorities]
  exact holdCounts_modify_trans rfl n fun _ => rfl

private theorem holdCounts_regenerateSubmitFile (n : JobID) (d : Dag) :
    (d.regenerateSubmitFile n).holdCounts = d.holdCounts := by
  have hswap (c : Prop) [Decidable c] (d : Dag) :
      (if c then d.swapPriorities n else d).holdCounts = d.holdCounts := by
    split
    · exact holdCounts_swapPriorities n d
    · rfl
  rw [regenerateSubmitFile]
  exact (hswap _ _).trans (hswap _ d)

private theorem keepsHolds_resetCondorID (n : JobID) (d : Dag) :
    d.KeepsHoldsOnly (d.resetCondorID n) := by
  intro d' h
  rw [resetCondorID] at h
  split at h
  · rw [some.inj h]
  · split at h
    · cases h
    · rw [← some.inj h]
      exact holdCounts_modify _ n fun _ => rfl

private theorem holdCounts_submitNodeJob {o : Options} {a : Answer} {n : JobID}
    {r : SubmitResult × Dag} (h : d.submitNodeJob o a n = some r) :
    r.2.holdCounts = d.holdCounts := by
  rw [submitNodeJob] at h
  obtain ⟨d1,hd1,rfl⟩ := Option.map_eq_some_iff.mp h
  rw [← keepsHolds_resetCondorID n d d1 hd1]
  dsimp only
  generalize ((d1.jobs n).jobType == .condor && !(d1.jobs n).noop && (d1.jobs n).dagFile &&
    o.generateSubdagSubmits) = nested
  generalize hregenerated : (if nested = true then d1.regenerateSubmitFile n else d1) = d2
  have hd2 : d2.holdCounts = d1.holdCounts := by
    rw [← hregenerated]
    split
    · exact holdCounts_regenerateSubmitFile n d1
    · rfl
  have hmonitor := (holdCounts_monitorLogFile a.monitored n d2).trans hd2
  split
  · exact hd2
  · split
    · next heq =>
      rw [heq] at hmonitor
      exact hmonitor
    · next heq =>
      rw [heq] at hmonitor
      split
      · exact (holdCounts_setStatus _ n _).trans hmonitor
      · have htried : (Dag.modify _ n fun j =>
            { j with submitTries := j.submitTries + 1 }).holdCounts = d1.holdCounts :=
          holdCounts_modify_trans hmonitor n fun _ => rfl
        split <;> exact htried

private theorem keepsHolds_processSuccessfulSubmit (n : JobID) (key : EventKey) (d : Dag) :
    d.KeepsHoldsOnly (d.processSuccessfulSubmit n key) := by
  intro d' h
  rw [processSuccessfulSubmit] at h
  obtain ⟨d1,hd1,h⟩ := Option.bind_eq_some_iff.mp h
  have hcounted : d1.holdCounts = d.holdCounts :=
    (keepsHolds_updateJobCounts n 1 _ d1 hd1).trans (holdCounts_setStatus _ n _)
  split at h
  · rw [← some.inj h]
    refine holdCounts_modify_trans ?_ n ?_
    · exact hcounted
    · intro j
      rfl
  · cases h

private theorem holdCounts_processFailedSubmit (o : Options) (a : Answer) (n : JobID) (d : Dag) :
    (d.processFailedSubmit o a n).1.holdCounts = d.holdCounts := by
  rw [processFailedSubmit]
  generalize hwait : ({ d with nextSubmitTime := a.now + d.nextSubmitDelay,
                               nextSubmitDelay := d.nextSubmitDelay * 2 } :
                                 Dag).unmonitorLogFile n =
    d1
  have hd1 : d1.holdCounts = d.holdCounts := by
    rw [← hwait]
    exact holdCounts_unmonitorLogFile n _
  dsimp only
  split
  · have hgiven : (({ d1 with nextSubmitTime := 0, nextSubmitDelay := 1 } : Dag).modify n
        fun j => { j with retries := j.retryMax }).holdCounts = d.holdCounts := by
      refine holdCounts_modify_trans ?_ n ?_
      · exact hd1
      · intro j
        rfl
    split
    · exact (holdCounts_runPostScript _ _ _ _ _ _).trans hgiven
    · exact (holdCounts_setStatus _ n _).trans hgiven
  · exact hd1

theorem keepsHolds_submitRound (o : Options) (a : Answer) (deferred : PriorityList) (count : Nat)
    (d : Dag) : d.KeepsHolds (d.submitRound o a deferred count) := by
  rw [submitRound]
  split
  · exact .some rfl
  · next n prio rest hq =>
    split
    · exact .some rfl
    · dsimp only
      split
      · exact .none
      · split
        · exact .some rfl
        · intro x hx
          obtain ⟨r,hr,hx⟩ := Option.bind_eq_some_iff.mp hx
          have hr := holdCounts_submitNodeJob hr
          split at hx
          · obtain ⟨d1,hd1,rfl⟩ := Option.map_eq_some_iff.mp hx
            exact (keepsHolds_processSuccessfulSubmit n _ r.2 d1 hd1).trans hr
          · rw [← some.inj hx]
            exact (holdCounts_processFailedSubmit o a n r.2).trans hr
          · rw [← some.inj hx]
            exact hr

theorem holdCounts_submitReadyJobs (now : Nat) (haltFile : Bool) (d : Dag) :
    (d.submitReadyJobs now haltFile).1.holdCounts = d.holdCounts := by
  rw [submitReadyJobs]
  split
  · rfl
  · dsimp only
    split <;> rfl

end Dag

theorem System.keepsHolds_dagCall (o : Options) (a : Answer) (d : Dag) (call : Call) :
    d.KeepsHolds (dagCall o a d call) := by
  cases call with
  | startNode n isRetry => exact d.keepsHolds_startNode o a n isRetry
  | releaseChild bootstrap parent child => exact d.keepsHolds_releaseChild bootstrap parent child
  | preScriptReaper n status => exact d.keepsHolds_preScriptReaper o a n status
  | runWaitingScript post => exact .some (d.holdCounts_runWaitingScript o a post)
  | runAllWaitingScripts => exact .some (d.holdCounts_runWaitingScript o a false)
  | checkForDagAbort n => exact d.keepsHolds_checkForDagAbort n
  | processNotIdleEvent n => exact .some (d.holdCounts_processNotIdleEvent n)
  | finalNodeStarted | bootstrapStart | returnDeferred => exact .some rfl
  | bootstrapDone n =>
    rw [dagCall]
    split
    · exact d.keepsHolds_terminateJob true n
    · exact .some rfl
  | recordSubmit | postScriptReaper | submitLoop => exact .none

end Condor.Dagman
