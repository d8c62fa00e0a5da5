import Condor.Dagman.View

/-!
# Job events and submissions in the view

The end of a proc, the start of the final node, the intake of a submit event and an attempt to
submit a node, each as an update of the view.
-/

namespace Condor.Dagman

open Lib List Function Option

namespace View

/-- `UpdateJobCounts`. -/
def countJob (v : View) (n : JobID) (change : Int) : View :=
  { v with
    jobsSubmitted := v.jobsSubmitted + change
    throttles := match (v.node n).throttle with
      | none => v.throttles
      | some c => update v.throttles c
          { v.throttles c with currentJobs := (v.throttles c).currentJobs + change } }

/-- `DecrementJobCounts`. -/
def endProc (v : View) (n : JobID) : View :=
  let w := v.setNode n { v.node n with queued := (v.node n).queued - 1 }
  if (v.node n).queued = 1 then w.countJob n (-1) else w

def forget (v : View) (n : JobID) : View :=
  match (v.node n).condorID with
  | none => v
  | some key =>
    { v.setNode n { v.node n with condorID := none } with hash := update v.hash key none }

def assign (v : View) (n : JobID) (key : EventKey) : View :=
  { v.setNode n { v.node n with condorID := some key } with
    hash := update v.hash key (some n) }

/-- A submit event is booked; `count` tells whether the proc is counted. -/
def seeSubmit (v : View) (n : JobID) (key : EventKey) (count : Bool) : View :=
  let w := v.assign n key
  w.setNode n { w.node n with queued := (w.node n).queued + if count then 1 else 0 }

/-- The final node becomes ready, and the ready queue keeps final nodes only. -/
def startFinal (v : View) (f : JobID) : View :=
  { v.setNode f { v.node f with status := .ready } with
    ready := fun m => if (v.node m).final then v.ready m else 0 }

def release (v : View) (parent child : JobID) : View :=
  v.setNode child { v.node child with waiting := (v.node child).waiting.erase parent }

theorem node_release {β : Type} {v : View} {p c m : JobID} (f : NodeView → β)
    (hf : ∀ x w, f { x with waiting := w } = f x) : f ((v.release p c).node m) = f (v.node m) := by
  by_cases hm : m = c
  · subst hm
    rw [release,setNode_node_self]
    exact hf _ _
  · simp only [release,setNode,update_of_ne hm]

end View

def Job.afterEnd (j : Job) (result : ProcEnd) : Job :=
  let j := { j with queuedNodeJobProcs := j.queuedNodeJobProcs - 1 }
  if j.status = .error then j
  else if result.failed then { j with status := .error, retval := result.retval }
  else { j with retval := 0 }

private theorem Job.afterEnd_static (j : Job) (result : ProcEnd) :
    (j.afterEnd result).scriptPost = j.scriptPost ∧
      (j.afterEnd result).abortDagVal = j.abortDagVal ∧ (j.afterEnd result).retries = j.retries ∧
      (j.afterEnd result).retryMax = j.retryMax ∧
      (j.afterEnd result).retryAbortVal = j.retryAbortVal ∧
      (j.afterEnd result).queuedNodeJobProcs = j.queuedNodeJobProcs - 1 := by
  unfold Job.afterEnd
  dsimp only
  split
  · exact ⟨rfl,rfl,rfl,rfl,rfl,rfl⟩
  · split
    · exact ⟨rfl,rfl,rfl,rfl,rfl,rfl⟩
    · exact ⟨rfl,rfl,rfl,rfl,rfl,rfl⟩

theorem Job.afterEnd_status (j : Job) (result : ProcEnd) :
    (j.afterEnd result).status = if result.failed = true then .error else j.status := by
  unfold Job.afterEnd
  dsimp only
  split
  · next he =>
    rw [he]
    split <;> rfl
  · split
    · rfl
    · rfl

theorem Job.done_of_afterEnd {j : Job} {result : ProcEnd}
    (h : (j.afterEnd result).status = .done) : j.status = .done := by
  rw [afterEnd_status] at h
  split at h
  · simp at h
  · exact h

/-- What `ProcessJobProcEnd` makes of a node; none if it leaves the node where it is. -/
def procEndFate (j : Job) (failed monitored : Bool) : Option View.Fate :=
  if failed && !j.scriptPost then
    if j.retries < j.retryMax then
      some (if j.retryAbortVal = some j.retval then .failed else .restarted)
    else if j.queuedNodeJobProcs = 0 then some .failed
    else none
  else if j.queuedNodeJobProcs = 0 then
    if j.scriptPost then some (if monitored then .postrun else .lost)
    else if j.status ≠ .error then some .finished
    else none
  else none

namespace Dag

variable {d : Dag} {r : Dag × List Call}

theorem releaseChild_view {bootstrap : Bool} {parent child : JobID}
    (h : d.releaseChild bootstrap parent child = some r) :
    child < d.numNodes ∧ r.1.view = d.view.release parent child ∧
      r.2 = if (r.1.jobs child).canSubmit && !bootstrap then [.startNode child false] else [] := by
  unfold releaseChild at h
  split at h
  · next hc =>
    refine ⟨hc,?_⟩
    dsimp only at h
    split at h
    · next hs =>
      obtain rfl := some.inj h
      exact ⟨view_modify d child _,(if_pos hs).symm⟩
    · next hs =>
      obtain rfl := some.inj h
      exact ⟨view_modify d child _,(if_neg hs).symm⟩
  · simp at h

private theorem occurrences_filter (q : PriorityList) (p : JobID → Bool) (m : JobID) :
    PriorityList.occurrences (q.filter fun x => p x.1) m = if p m then q.occurrences m else 0 := by
  induction q with
  | nil => simp [PriorityList.occurrences]
  | cons x q ih =>
    unfold PriorityList.occurrences at ih ⊢
    rw [filter_cons,countP_cons]
    split
    · next hx =>
      rw [countP_cons,ih]
      by_cases hm : x.1 = m
      · subst hm
        simp [hx]
      · simp [hm]
    · next hx =>
      rw [ih]
      by_cases hm : x.1 = m
      · subst hm
        simp [hx]
      · simp [hm]

theorem startFinalNode_view (h : d.startFinalNode = some r) :
    ∃ f, d.finalJob = some f ∧ (d.jobs f).status = .notReady ∧
      r.1.view = d.view.startFinal f ∧ r.2 = [.startNode f false,.finalNodeStarted] := by
  unfold startFinalNode at h
  split at h
  · simp at h
  · next f hf =>
    split at h
    · next hs =>
      obtain rfl := some.inj h
      refine ⟨f,hf,hs,?_,rfl⟩
      dsimp only
      rw [view_setStatus]
      have hready : PriorityList.occurrences (d.readyQ.filter fun x => (d.jobs x.1).final) =
          fun m => if (d.view.node m).final then d.view.ready m else 0 := by
        funext m
        exact occurrences_filter d.readyQ (fun m => (d.jobs m).final) m
      exact congrArg (fun ready => { d.view.setNode f { d.view.node f with status := .ready } with
        ready := ready }) hready
    · simp at h

variable {n : JobID} {d d' : Dag}

theorem updateJobCounts_view {change : Int} (h : d.updateJobCounts n change = some d') :
    d'.view = d.view.countJob n change ∧ d'.jobs = d.jobs := by
  unfold updateJobCounts at h
  dsimp only at h
  split at h
  · simp at h
  · split at h
    · next ht =>
      obtain rfl := some.inj h
      have ht : (d.view.node n).throttle = none := ht
      refine ⟨?_,rfl⟩
      rw [View.countJob,ht]
      rfl
    · next c ht =>
      have ht : (d.view.node n).throttle = some c := ht
      split at h
      · simp at h
      · obtain rfl := some.inj h
        refine ⟨?_,rfl⟩
        rw [View.countJob,ht]
        rfl

private theorem decrementJobCounts_view (h : d.decrementJobCounts n = some d') :
    d'.view = d.view.endProc n ∧
      d'.jobs n = { d.jobs n with queuedNodeJobProcs := (d.jobs n).queuedNodeJobProcs - 1 } := by
  have hview := view_modify d n fun j =>
    { j with queuedNodeJobProcs := j.queuedNodeJobProcs - 1 }
  unfold decrementJobCounts at h
  dsimp only at h
  split at h
  · simp at h
  · rw [modify_jobs_self] at h
    dsimp only at h
    split at h
    · next hz =>
      obtain ⟨hv,hj⟩ := updateJobCounts_view h
      refine ⟨?_,by rw [hj,modify_jobs_self]⟩
      have hq : (d.view.node n).queued = 1 := by
        change (d.jobs n).queuedNodeJobProcs = 1
        omega
      rw [hv,hview,View.endProc,if_pos hq]
      rfl
    · next hz =>
      obtain rfl := some.inj h
      refine ⟨?_,modify_jobs_self ..⟩
      have hq : ¬(d.view.node n).queued = 1 := by
        change ¬(d.jobs n).queuedNodeJobProcs = 1
        omega
      rw [hview,View.endProc,if_neg hq]
      rfl

/-- The node's share of `ProcessJobProcEnd`: one more retry after a restart. -/
def retriesAfter (j : Job) (fate : View.Fate) : Nat :=
  if fate = .restarted then j.retries + 1 else j.retries

/-- What a handler makes of a node: it settles it, or leaves it where it is. -/
def Handled (v : View) (n : JobID) (j : Job) (r : Dag × List Call) : Option View.Fate → Prop
  | some fate => Settled v n fate (retriesAfter j fate) r
  | none => r.1.view = v.setNode n { v.node n with status := j.status } ∧
      r.2.filter Call.moves = []

private theorem unmonitored_view {c : Prop} [Decidable c]
    (h : (if c then d.unmonitorLogFile n else d) = d') :
    d'.view = d.view ∧ ∃ b, d'.jobs n = { d.jobs n with logIsMonitored := b } := by
  split at h
  · subst h
    exact ⟨view_unmonitorLogFile n d,false,modify_jobs_self ..⟩
  · subst h
    exact ⟨rfl,(d.jobs n).logIsMonitored,rfl⟩

variable {o : Options} {a : Answer}

private theorem processJobProcEnd_handled {failed : Bool}
    (hf : failed = true → (d.jobs n).status = .error)
    (h : d.processJobProcEnd o a n failed = some r) :
    ∃ monitored, (a.postMonitored = true → monitored = true) ∧
      Handled d.view n (d.jobs n) r (procEndFate (d.jobs n) failed monitored) := by
  have hstay : d.view = d.view.setNode n { d.view.node n with status := (d.jobs n).status } :=
    (View.setNode_eq_self d.view n).symm
  unfold processJobProcEnd at h
  dsimp only at h
  generalize hd' : (if (d.jobs n).queuedNodeJobProcs = 0 then d.unmonitorLogFile n else d) = d' at h
  obtain ⟨hv,monitored,hj⟩ := unmonitored_view hd'
  have hpost : (d'.jobs n).scriptPost = (d.jobs n).scriptPost := by rw [hj]
  have hret : (d'.jobs n).retries = (d.jobs n).retries := by rw [hj]
  have hmax : (d'.jobs n).retryMax = (d.jobs n).retryMax := by rw [hj]
  have hst : (d'.jobs n).status = (d.jobs n).status := by rw [hj]
  have hval : (d'.jobs n).retval = (d.jobs n).retval := by rw [hj]
  have hab : (d'.jobs n).retryAbortVal = (d.jobs n).retryAbortVal := by rw [hj]
  rw [hpost,hret,hmax,hst] at h
  split at h
  · next hfail =>
    refine ⟨true,fun _ => rfl,?_⟩
    rw [procEndFate,if_pos hfail]
    have hfail : failed = true := (Bool.and_eq_true_iff.mp hfail).1
    split at h
    · next hlt =>
      rw [if_pos hlt]
      obtain ⟨-,hrest⟩ := restartNode_settles h
      rw [hv,hret,hmax,hval,hab] at hrest
      rcases hrest with ⟨hu,hset⟩ | ⟨hu,-,hset⟩
      · rw [if_pos hu]
        exact hset
      · rw [if_neg hu]
        exact hset
    · next hlt =>
      rw [if_neg hlt]
      split at h
      · next hz =>
        rw [if_pos hz]
        obtain rfl := some.inj h
        have hset := nodeFailed_settles (n := n) (d := d') (hst.trans (hf hfail))
        rw [hv,hret] at hset
        exact hset
      · next hz =>
        rw [if_neg hz]
        obtain rfl := some.inj h
        exact ⟨hv.trans hstay,rfl⟩
  · next hfail =>
    split at h
    · next hz =>
      split at h
      · next hp =>
        obtain rfl := some.inj h
        obtain ⟨fate,hfate,hset⟩ := runPostScript_settles o a (hpost.trans hp)
          (.inr rfl : o.alwaysRunPost = true ∨ (0 : Int) = 0)
        rw [hv,hret] at hset
        rcases hfate with rfl | ⟨rfl,hm⟩
        · refine ⟨true,fun _ => rfl,?_⟩
          rw [procEndFate,if_neg hfail,if_pos hz,if_pos hp]
          exact hset
        · refine ⟨false,fun hm' => by rw [hm] at hm'; simp at hm',?_⟩
          rw [procEndFate,if_neg hfail,if_pos hz,if_pos hp]
          exact hset
      · next hp =>
        refine ⟨true,fun _ => rfl,?_⟩
        rw [procEndFate,if_neg hfail,if_pos hz,if_neg hp]
        split at h
        · next he =>
          rw [if_pos he]
          have hset := terminateJob_settles h
          rw [hv,hret] at hset
          exact hset
        · next he =>
          rw [if_neg he]
          obtain rfl := some.inj h
          exact ⟨hv.trans hstay,rfl⟩
    · next hz =>
      refine ⟨true,fun _ => rfl,?_⟩
      rw [procEndFate,if_neg hfail,if_neg hz]
      obtain rfl := some.inj h
      exact ⟨hv.trans hstay,rfl⟩

private theorem Handled.of_status {v w : View} {j j' : Job}
    {fate : Option View.Fate} (hw : w = v.setNode n { v.node n with status := j.status })
    (hj : ∃ k, j' = { j with jobProcsOnHold := k }) (h : Handled w n j' r fate) :
    Handled v n j r fate := by
  obtain ⟨k,rfl⟩ := hj
  cases fate with
  | some fate => exact Settled.of_view j.status hw h
  | none =>
    refine ⟨?_,h.2⟩
    rw [h.1,hw,View.setNode_setNode,View.setNode_node_self]

private theorem procFailed_booked {d d1 : Dag} (result : ProcEnd)
    (hf : result.failed = true) (hv : d1.view = d.view.endProc n) {k : Int}
    (hj : d1.jobs n = { d.jobs n with
      queuedNodeJobProcs := (d.jobs n).queuedNodeJobProcs - 1, jobProcsOnHold := k }) :
    (d1.procFailed n result.retval).view = (d.view.endProc n).setNode n
        { (d.view.endProc n).node n with status := ((d.jobs n).afterEnd result).status } ∧
      (d1.procFailed n result.retval).jobs n =
        { (d.jobs n).afterEnd result with jobProcsOnHold := k } := by
  have hs : (d1.jobs n).status = (d.jobs n).status := by rw [hj]
  have hn : (d1.view.node n).status = (d.jobs n).status := hs
  unfold procFailed Job.afterEnd
  rw [hs]
  by_cases he : (d.jobs n).status = .error
  · rw [if_pos he]
    dsimp only
    rw [if_pos he,← hv]
    refine ⟨?_,hj⟩
    dsimp only
    rw [← hn,View.setNode_eq_self]
  · rw [if_neg he]
    dsimp only
    rw [if_neg he,if_pos hf,view_modify,← hv,modify_jobs_self,hj]
    refine ⟨?_,rfl⟩
    have hnode : d1.view.node n = (d1.jobs n).view := rfl
    rw [hnode,hj]
    rfl

private theorem procSucceeded_booked {d d1 : Dag} (result : ProcEnd)
    (hf : ¬result.failed = true) (hv : d1.view = d.view.endProc n) (hj : d1.jobs n = { d.jobs n with
      queuedNodeJobProcs := (d.jobs n).queuedNodeJobProcs - 1 }) {d2 : Dag}
    (hd2 : (if (d1.jobs n).status = .error then d1
      else d1.modify n fun j => { j with retval := 0 }) = d2) :
    d2.view = (d.view.endProc n).setNode n
        { (d.view.endProc n).node n with status := ((d.jobs n).afterEnd result).status } ∧
      d2.jobs n = (d.jobs n).afterEnd result := by
  have hs : (d1.jobs n).status = (d.jobs n).status := by rw [hj]
  have hn : (d1.view.node n).status = (d.jobs n).status := hs
  unfold Job.afterEnd
  rw [hs] at hd2
  by_cases he : (d.jobs n).status = .error
  · rw [if_pos he] at hd2
    subst hd2
    dsimp only
    rw [if_pos he,← hv]
    refine ⟨?_,hj⟩
    dsimp only
    rw [← hn,View.setNode_eq_self]
  · rw [if_neg he] at hd2
    subst hd2
    dsimp only
    rw [if_neg he,if_neg hf,← hv,view_modify_quiet d1 n rfl,modify_jobs_self,hj]
    refine ⟨?_,rfl⟩
    dsimp only
    rw [← hn,View.setNode_eq_self]

theorem procEnd_cases {result : ProcEnd} (h : (match result with
      | .aborted => d.processAbortEvent o a n
      | .terminated t => d.processTerminatedEvent o a n t) = some r) :
    (∃ monitored, (a.postMonitored = true → monitored = true) ∧
      Handled (d.view.endProc n) n ((d.jobs n).afterEnd result) r
        (procEndFate ((d.jobs n).afterEnd result) result.failed monitored)) ∨
    ∃ d2 : Dag, (∃ t, result = .terminated t) ∧ d2.view = (d.view.endProc n).setNode n
        { (d.view.endProc n).node n with status := ((d.jobs n).afterEnd result).status } ∧
      (d.jobs n).scriptPost = false ∧
      (d.jobs n).abortDagVal = some ((d.jobs n).afterEnd result).retval ∧
      d2.startFinalNode = some r := by
  cases result with
  | aborted =>
    obtain ⟨d1,hd1,h⟩ := Option.bind_eq_some_iff.mp h
    obtain ⟨hv,hj⟩ := decrementJobCounts_view hd1
    dsimp only at h
    left
    generalize hd2 : (if (d1.jobs n).jobProcsOnHold > 0 then
        ({ d1 with numHeldJobProcs := d1.numHeldJobProcs - 1 } : Dag).modify n
          fun j => { j with jobProcsOnHold := j.jobProcsOnHold - 1 }
      else d1) = d2 at h
    have hheld : d2.view = d.view.endProc n ∧ ∃ k, d2.jobs n = { d.jobs n with
        queuedNodeJobProcs := (d.jobs n).queuedNodeJobProcs - 1, jobProcsOnHold := k } := by
      split at hd2
      · subst hd2
        refine ⟨(view_modify_quiet _ n rfl).trans hv,(d1.jobs n).jobProcsOnHold - 1,?_⟩
        rw [modify_jobs_self]
        dsimp only
        rw [hj]
      · subst hd2
        exact ⟨hv,_,hj⟩
    obtain ⟨hv2,k,hj2⟩ := hheld
    obtain ⟨hview,hjob⟩ := procFailed_booked .aborted rfl hv2 hj2
    have herr : ((d2.procFailed n dagErrorCondorJobAborted).jobs n).status = .error := by
      unfold procFailed
      split
      · assumption
      · rw [modify_jobs_self]
    obtain ⟨monitored,hm,hh⟩ := processJobProcEnd_handled (fun _ => herr) h
    refine ⟨monitored,hm,?_⟩
    change Handled (d2.procFailed n (ProcEnd.retval .aborted)).view n
      ((d2.procFailed n (ProcEnd.retval .aborted)).jobs n) r
      (procEndFate ((d2.procFailed n (ProcEnd.retval .aborted)).jobs n) true monitored) at hh
    rw [hjob] at hh
    exact Handled.of_status hview ⟨k,rfl⟩ hh
  | terminated t =>
    obtain ⟨d1,hd1,h⟩ := Option.bind_eq_some_iff.mp h
    obtain ⟨hv,hj⟩ := decrementJobCounts_view hd1
    dsimp only at h
    generalize hd2 : (if t.failed then d1.procFailed n t.retval
      else if (d1.jobs n).status = .error then d1
      else d1.modify n fun j => { j with retval := 0 }) = d2 at h
    have hbooked : d2.view = (d.view.endProc n).setNode n
        { (d.view.endProc n).node n with
          status := ((d.jobs n).afterEnd (.terminated t)).status } ∧
        (∃ k, d2.jobs n = { (d.jobs n).afterEnd (.terminated t) with jobProcsOnHold := k }) ∧
        (t.failed = true → (d2.jobs n).status = .error) := by
      split at hd2
      · next hf =>
        obtain ⟨hview,hjob⟩ := procFailed_booked (.terminated t) hf hv hj
        subst hd2
        refine ⟨hview,⟨_,hjob⟩,fun _ => ?_⟩
        unfold procFailed
        split
        · assumption
        · rw [modify_jobs_self]
      · next hf =>
        obtain ⟨hview,hjob⟩ := procSucceeded_booked (.terminated t) hf hv hj hd2
        exact ⟨hview,⟨((d.jobs n).afterEnd (.terminated t)).jobProcsOnHold,hjob⟩,
          fun hf' => absurd hf' hf⟩
    obtain ⟨hview,⟨k,hjob⟩,herr⟩ := hbooked
    have hstatic := (d.jobs n).afterEnd_static (.terminated t)
    split at h
    · next hab =>
      simp only [Bool.and_eq_true,Bool.not_eq_true',abortsDag,beq_iff_eq] at hab
      rw [hjob] at hab
      exact .inr ⟨d2,⟨t,rfl⟩,hview,hstatic.1.symm.trans hab.1,hstatic.2.1.symm.trans hab.2,h⟩
    · obtain ⟨monitored,hm,hh⟩ := processJobProcEnd_handled herr h
      rw [hjob] at hh
      exact .inl ⟨monitored,hm,Handled.of_status hview ⟨k,rfl⟩ hh⟩

theorem resetCondorID_view (h : d.resetCondorID n = some d') :
    d'.view = d.view.forget n ∧ d'.jobs n = { d.jobs n with condorID := none } := by
  unfold resetCondorID at h
  split at h
  · next hid =>
    obtain rfl := some.inj h
    have hv : (d.view.node n).condorID = none := hid
    refine ⟨?_,?_⟩
    · rw [View.forget,hv]
    · rw [← hid]
  · next key hid =>
    have hv : (d.view.node n).condorID = some key := hid
    split at h
    · simp at h
    · obtain rfl := some.inj h
      refine ⟨?_,modify_jobs_self ..⟩
      rw [View.forget,hv,view_modify]
      rfl

/-- What `SubmitNodeJob` leaves when nothing is submitted: a node that no one will look at
again, in two of three cases. -/
theorem submitNodeJob_cases {r : SubmitResult × Dag} (h : d.submitNodeJob o a n = some r) :
    (r.1 = .noSubmit ∧ a.subdagSubmitted = false ∧ r.2.view = d.view.forget n) ∨
    (r.1 = .noSubmit ∧ ∃ fate, (fate = .failed ∨ (fate = .lost ∧ a.monitored = false)) ∧
      Settled (d.view.forget n) n fate (d.jobs n).retries (r.2,[])) ∨
    (r.1 ≠ .noSubmit ∧ r.2.view = d.view.forget n) := by
  unfold submitNodeJob at h
  obtain ⟨d1,hd1,rfl⟩ := Option.map_eq_some_iff.mp h
  obtain ⟨hv,hj⟩ := resetCondorID_view hd1
  have hret : (d1.jobs n).retries = (d.jobs n).retries := by rw [hj]
  dsimp only
  generalize hnest : ((d1.jobs n).jobType == .condor && !(d1.jobs n).noop &&
    (d1.jobs n).dagFile && o.generateSubdagSubmits) = nested
  generalize hd2 : (if nested = true then d1.regenerateSubmitFile n else d1) = d2
  have hv2 : d2.view = d.view.forget n := by
    rw [← hv,← hd2]
    split
    · exact view_regenerateSubmitFile n d1
    · rfl
  have hret2 : (d2.jobs n).retries = (d.jobs n).retries := by
    have hr := congrFun (congrArg View.node (hv2.trans hv.symm)) n
    exact (congrArg NodeView.retries hr).trans hret
  split
  · next hsub =>
    simp only [Bool.and_eq_true,Bool.not_eq_true'] at hsub
    exact .inl ⟨rfl,hsub.2,hv2⟩
  · generalize hm : monitorLogFile a.monitored n d2 = m
    have hmon := monitorLogFile_view a.monitored n d2
    rw [hm] at hmon
    obtain ⟨ok,d3⟩ := m
    rcases hmon with ⟨rfl,hv3⟩ | ⟨rfl,hf,hv3⟩
    · dsimp only at hv3 ⊢
      rw [hv2] at hv3
      split
      · refine .inr (.inl ⟨rfl,.failed,.inl rfl,?_⟩)
        have hr := congrArg NodeView.retries (congrFun (congrArg View.node (hv3.trans hv2.symm)) n)
        have hset := (nodeFailed_settles (n := n) (d := d3.setStatus n .error) (by simp)).of_view
          .error (view_setStatus d3 n .error)
        rw [hv3,setStatus_jobs_self] at hset
        have hr' : (d3.jobs n).retries = (d.jobs n).retries := hr.trans hret2
        dsimp only at hset
        rw [hr'] at hset
        exact hset
      · right
        right
        have hq : (d3.modify n fun j => { j with submitTries := j.submitTries + 1 }).view =
            d.view.forget n := (view_modify_quiet d3 n rfl).trans hv3
        split
        · exact ⟨by simp,hq⟩
        · exact ⟨by simp,hq⟩
    · refine .inr (.inl ⟨rfl,.lost,.inr ⟨rfl,hf⟩,?_,rfl⟩)
      dsimp only at hv3 ⊢
      rw [hv3,hv2,← hret2]
      have hr := congrArg NodeView.retries (congrFun (congrArg View.node hv2) n)
      have hr' : ((d.view.forget n).node n).retries = (d2.jobs n).retries := hr.symm
      rw [← hr']
      rfl

private theorem processSuccessfulSubmit_view {key : EventKey}
    (h : d.processSuccessfulSubmit n key = some d') : d.view.hash key = none ∧
      d'.view =
        ((d.view.setNode n { d.view.node n with status := .submitted }).countJob n 1).assign n
          key := by
  unfold processSuccessfulSubmit at h
  dsimp only at h
  obtain ⟨d1,hd1,h⟩ := Option.bind_eq_some_iff.mp h
  obtain ⟨hv,-⟩ := updateJobCounts_view hd1
  rw [view_setStatus] at hv
  have hv : d1.view =
      (d.view.setNode n { d.view.node n with status := .submitted }).countJob n 1 := hv
  split at h
  · next hc =>
    obtain rfl := some.inj h
    have hh : d1.view.hash key = none := hc.2
    refine ⟨?_,?_⟩
    · rw [hv] at hh
      exact hh
    · rw [view_modify,← hv]
      rfl
  · simp at h

private theorem processFailedSubmit_settles (hs : (d.jobs n).status = .ready) :
    ∃ fate k, (fate = .queued ∨ fate = .failed ∨ fate = .postrun ∨
        (fate = .lost ∧ a.postMonitored = false)) ∧
      Settled d.view n fate k (d.processFailedSubmit o a n) := by
  unfold processFailedSubmit
  dsimp only
  generalize hd1 : ({ d with nextSubmitTime := a.now + d.nextSubmitDelay,
                             nextSubmitDelay := d.nextSubmitDelay * 2 } :
                               Dag).unmonitorLogFile n = d1
  have hv1 : d1.view = d.view := by
    rw [← hd1]
    exact view_unmonitorLogFile n _
  have hs1 : (d1.jobs n).status = .ready :=
    (congrArg NodeView.status (congrFun (congrArg View.node hv1) n)).trans hs
  split
  · generalize hd2 : ({ d1 with nextSubmitTime := 0, nextSubmitDelay := 1 } : Dag).modify n
      (fun j => { j with retries := j.retryMax }) = d2
    have hv2 : d2.view = d.view.setNode n { d.view.node n with
        status := (d.view.node n).status, retries := (d.view.node n).retryMax } := by
      rw [← hd2,view_modify,← hv1]
      rfl
    split
    · next hp =>
      obtain ⟨fate,hfate,hset⟩ := runPostScript_settles o a hp
        (.inr rfl : o.alwaysRunPost = true ∨ (0 : Int) = 0)
      have hset := hset.of_setNode _ _ hv2
      rcases hfate with rfl | ⟨rfl,hm⟩
      · exact ⟨_,_,.inr (.inr (.inl rfl)),hset⟩
      · exact ⟨_,_,.inr (.inr (.inr ⟨rfl,hm⟩)),hset⟩
    · have hset := (nodeFailed_settles (n := n) (d := d2.setStatus n .error) (by simp)).of_view
        .error (view_setStatus d2 n .error)
      exact ⟨_,_,.inr (.inl rfl),hset.of_setNode _ _ hv2⟩
  · have hset := enqueueReady_settles o.retrySubmitFirst hs1
    rw [hv1] at hset
    exact ⟨_,_,.inl rfl,hset⟩

theorem recordSubmit_view {key : EventKey} {sane : Bool} (h : d.recordSubmit n key sane = some d') :
    (d.view.node n).waiting.isEmpty = true ∧
      (d.view.hash key = none ∨ d.view.hash key = some n) ∧
      d'.view = d.view.seeSubmit n key (sane || (d.view.node n).status != .submitted) := by
  unfold recordSubmit at h
  split at h
  · simp at h
  · dsimp only at h
    obtain ⟨d1,hd1,h⟩ := Option.bind_eq_some_iff.mp h
    have hassign : (d.view.hash key = none ∨ d.view.hash key = some n) ∧
        d1.view = d.view.assign n key ∧ d1.jobs n = { d.jobs n with condorID := some key } := by
      split at hd1
      · next hh =>
        obtain rfl := some.inj hd1
        have hv := view_modify d n fun j => { j with condorID := some key }
        refine ⟨.inl hh,?_,modify_jobs_self d n fun j => { j with condorID := some key }⟩
        exact congrArg (fun v : View => { v with hash := update v.hash key (some n) }) hv
      · next m hh =>
        split at hd1
        · next hm =>
          subst hm
          obtain rfl := some.inj hd1
          have hh : d.view.hash key = some m := hh
          refine ⟨.inr hh,?_,modify_jobs_self ..⟩
          have hsame : update d.view.hash key (some m) = d.view.hash := by
            rw [← hh]
            exact update_eq_self key _
          rw [view_modify,View.assign,hsame]
          rfl
        · simp at hd1
    obtain ⟨hhash,hv1,hj1⟩ := hassign
    split at h
    · simp at h
    · next hw =>
      have hw : (d.jobs n).waiting.isEmpty = true := by
        rw [hj1] at hw
        simpa using hw
      have hst : (d1.jobs n).status = (d.view.node n).status := by
        rw [hj1]
        rfl
      refine ⟨hw,hhash,?_⟩
      rw [hst] at h
      obtain rfl := some.inj h
      rw [view_processIsIdleEvent,View.seeSubmit,← hv1]
      dsimp only
      split
      · exact view_modify d1 n _
      · simp only [Int.add_zero]
        exact (View.setNode_eq_self d1.view n).symm

/-- The node that the next round of the submit loop hands to `SubmitNodeJob`. -/
def nodeToSubmit (o : Options) (count : Nat) (d : Dag) : Option JobID :=
  match d.readyQ with
  | [] => none
  | (n,_) :: _ =>
    if d.cycleEnds o count || (d.jobs n).status != .ready || d.throttled n then none else some n

def attempt (v : View) (n : JobID) : View :=
  ({ v with ready := update v.ready n (v.ready n - 1) } : View).forget n

private theorem occurrences_prepend (n : JobID) (prio : Int) (q : PriorityList) :
    PriorityList.occurrences (q.prepend n prio) =
      update q.occurrences n (q.occurrences n + 1) :=
  occurrences_add true n prio q

private theorem occurrences_rest {prio : Int} {q rest : PriorityList} (h : q = (n,prio) :: rest) :
    q.occurrences n ≠ 0 ∧
      rest.occurrences = update q.occurrences n (q.occurrences n - 1) := by
  subst h
  refine ⟨by simp [PriorityList.occurrences],?_⟩
  funext m
  by_cases hm : m = n
  · simp [PriorityList.occurrences,hm]
  · simp [PriorityList.occurrences,hm,Ne.symm hm]

def goesOn (deferred : PriorityList) (call : Call) : Prop :=
  (∃ count, call = .submitLoop deferred count) ∨ call = .returnDeferred deferred

theorem submitRound_cases {deferred : PriorityList} {count : Nat}
    {r : Dag × List Call × Option (JobID × EventKey × Nat)}
    (h : d.submitRound o a deferred count = some r) :
    (r.2.2 = none ∧ r.1.view = { d.view with ready := r.1.view.ready } ∧
      r.2.1.filter Call.owed = [] ∧
      ∀ m, r.1.view.ready m + placesIn r.2.1 m = d.view.ready m + deferred.occurrences m) ∨
    ∃ n call, d.nodeToSubmit o count = some n ∧ d.view.ready n ≠ 0 ∧
      (d.jobs n).status = .ready ∧ d.cycleEnds o count = false ∧ d.throttled n = false ∧
      goesOn deferred call ∧
      ((∃ key moreProcs, (attempt d.view n).hash key = none ∧
          r.1.view = (((attempt d.view n).setNode n
            { (attempt d.view n).node n with status := .submitted }).countJob n 1).assign n key ∧
          r.2.1 = [call] ∧ r.2.2 = some (n,key,moreProcs)) ∨
        (r.2.2 = none ∧ ∃ fate k calls, (fate = .queued ∨ fate = .failed ∨ fate = .postrun ∨
            (fate = .lost ∧ (a.monitored = false ∨ a.postMonitored = false))) ∧
          Settled (attempt d.view n) n fate k (r.1,calls) ∧ r.2.1 = calls ++ [call]) ∨
        (r.2.2 = none ∧ a.subdagSubmitted = false ∧ r.1.view = attempt d.view n ∧
          r.2.1 = [call])) := by
  unfold submitRound at h
  split at h
  · obtain rfl := some.inj h
    exact .inl ⟨rfl,rfl,rfl,fun m => rfl⟩
  · next n prio rest hq =>
    obtain ⟨hne,hrest⟩ := occurrences_rest hq
    split at h
    · obtain rfl := some.inj h
      exact .inl ⟨rfl,rfl,rfl,fun m => rfl⟩
    · next hend =>
      have hend : d.cycleEnds o count = false := by simpa using hend
      dsimp only at h
      have hv1 : ({ d with readyQ := rest } : Dag).view =
          { d.view with ready := update d.view.ready n (d.view.ready n - 1) } :=
        congrArg (fun ready => { d.view with ready := ready }) hrest
      have hth : ({ d with readyQ := rest } : Dag).throttled n = d.throttled n := rfl
      split at h
      · simp at h
      · next hs =>
        rw [not_not] at hs
        split at h
        · -- the category is full: the node goes to the deferred ones
          obtain rfl := some.inj h
          refine .inl ⟨rfl,?_,rfl,fun m => ?_⟩
          · dsimp only
            rw [hv1]
          · dsimp only
            rw [hv1]
            simp only [placesIn_cons,placesIn_nil,Call.places,occurrences_prepend]
            have hpos : 0 < d.view.ready n := Nat.pos_of_ne_zero hne
            by_cases hm : m = n
            · subst hm
              simp only [update_self]
              omega
            · simp [update_of_ne hm]
        · next ht =>
          have ht : d.throttled n = false := by rw [← hth]; simpa using ht
          have hnode : d.nodeToSubmit o count = some n := by
            simp [nodeToSubmit,hq,hend,hs,ht]
          obtain ⟨r',hr',h⟩ := Option.bind_eq_some_iff.mp h
          have hcases := submitNodeJob_cases hr'
          rw [hv1] at hcases
          change _ ∨ (_ ∧ ∃ fate, _ ∧ Settled (attempt d.view n) n fate _ _) ∨ _ at hcases
          right
          rcases hcases with ⟨hno,hsub,hv⟩ | ⟨hno,fate,hfate,hset⟩ | ⟨hyes,hv⟩
          · rw [hno] at h
            obtain rfl := some.inj h
            exact ⟨n,_,hnode,hne,hs,hend,ht,.inl ⟨count,rfl⟩,
              .inr (.inr ⟨rfl,hsub,hv,rfl⟩)⟩
          · rw [hno] at h
            obtain rfl := some.inj h
            refine ⟨n,_,hnode,hne,hs,hend,ht,.inl ⟨count,rfl⟩,
              .inr (.inl ⟨rfl,fate,_,[],?_,hset,rfl⟩)⟩
            rcases hfate with rfl | ⟨rfl,hm⟩
            · exact .inr (.inl rfl)
            · exact .inr (.inr (.inr ⟨rfl,.inl hm⟩))
          · have hv : r'.2.view = attempt d.view n := hv
            cases hres : r'.1 with
            | noSubmit => exact absurd hres hyes
            | success key moreProcs =>
              rw [hres] at h
              obtain ⟨d2,hd2,rfl⟩ := Option.map_eq_some_iff.mp h
              obtain ⟨hh,hview⟩ := processSuccessfulSubmit_view hd2
              rw [hv] at hh hview
              exact ⟨n,_,hnode,hne,hs,hend,ht,.inl ⟨count + 1,rfl⟩,
                .inl ⟨key,moreProcs,hh,hview,rfl,rfl⟩⟩
            | failed =>
              rw [hres] at h
              obtain rfl := some.inj h
              have hs' : (r'.2.jobs n).status = .ready := by
                have hst := congrArg NodeView.status (congrFun (congrArg View.node hv) n)
                have hf : ((attempt d.view n).node n).status = (d.jobs n).status := by
                  unfold attempt View.forget
                  split
                  · rfl
                  · simp [View.setNode]
                    rfl
                exact hst.trans (hf.trans hs)
              obtain ⟨fate,k,hfate,hset⟩ :=
                processFailedSubmit_settles (o := o) (a := a) (n := n) (d := r'.2) hs'
              rw [hv] at hset
              refine ⟨n,_,hnode,hne,hs,hend,ht,.inr rfl,
                .inr (.inl ⟨rfl,fate,k,_,?_,hset,rfl⟩)⟩
              rcases hfate with h | h | h | ⟨h,hm⟩
              · exact .inl h
              · exact .inr (.inl h)
              · exact .inr (.inr (.inl h))
              · exact .inr (.inr (.inr ⟨h,.inr hm⟩))

theorem returnDeferred_ready (deferred : PriorityList) (d : Dag) :
    (d.returnDeferred deferred).view =
        { d.view with ready := (d.returnDeferred deferred).view.ready } ∧
      ∀ m, (d.returnDeferred deferred).view.ready m =
        d.view.ready m + PriorityList.occurrences deferred m := by
  refine ⟨rfl,fun m => ?_⟩
  change PriorityList.occurrences (deferred.foldl (fun q x =>
    PriorityList.prepend x.1 (-(d.jobs x.1).nodePriority) q) d.readyQ) m =
      PriorityList.occurrences d.readyQ m + _
  generalize d.readyQ = q
  induction deferred generalizing q with
  | nil => rfl
  | cons x xs ih =>
    rw [foldl_cons,ih]
    have hx : PriorityList.occurrences (x :: xs) m =
        PriorityList.occurrences xs m + if x.1 = m then 1 else 0 := by
      simp [PriorityList.occurrences,countP_cons]
    rw [hx,occurrences_prepend]
    by_cases hm : m = x.1
    · subst hm
      simp only [update_self,if_true]
      omega
    · rw [update_of_ne hm,if_neg (Ne.symm hm)]
      omega

end Dag

end Condor.Dagman
