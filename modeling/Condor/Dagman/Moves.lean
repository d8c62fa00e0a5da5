import Condor.Dagman.Handlers

/-!
# What a step can do

Every step of a running DAG, in terms of the view, the clusters, the places of the nodes (in the
ready queue or in a pending call) and the calls owed to the dependencies.
-/

namespace Condor.Dagman

open Lib List Function Option

namespace View

def Fate.places : Fate → Nat
  | queued => 1
  | restarted => 1
  | _ => 0

def Fate.owed (n : JobID) (children : OrderedSet JobID) : Fate → List Call
  | finished => children.elems.map (Call.releaseChild false n)
  | _ => []

def leave (v : View) (post : Bool) : View :=
  if post then { v with postRun := v.postRun - 1 } else { v with preRun := v.preRun - 1 }

def handle (v : View) (n : JobID) (j : Job) : Option Fate → View
  | some fate => v.settle n fate (Dag.retriesAfter j fate)
  | none => v.setNode n { v.node n with status := j.status }

end View

def fatePlaces : Option View.Fate → Nat
  | some fate => fate.places
  | none => 0

def fateOwed (n : JobID) (children : OrderedSet JobID) : Option View.Fate → List Call
  | some fate => fate.owed n children
  | none => []

namespace System

def places (s : System) (n : JobID) : Nat := s.dag.view.ready n + placesIn s.calls n

def owed (s : System) : List Call := s.calls.filter Call.owed

/-- The node that the next call hands to `SubmitNodeJob`. -/
def submits (o : Options) (s : System) : Option JobID :=
  match s.calls with
  | .submitLoop _ count :: _ => s.dag.nodeToSubmit o count
  | _ => none

end System

inductive Moves (o : Options) (s : System) (l : Label) (s' : System) : Prop
  | quiet (hv : s'.dag.view = { s.dag.view with ready := s'.dag.view.ready })
      (hc : s'.clusters = s.clusters) (hp : ∀ m, s'.places m = s.places m)
      (ho : s'.owed = s.owed)
  /-- `Bootstrap` comes across a node that is not done. -/
  | skipped (n : JobID) (hs : (s.dag.jobs n).status ≠ .done) (hv : s'.dag.view = s.dag.view)
      (hc : s'.clusters = s.clusters) (hp : ∀ m, s'.places m = s.places m)
      (ho : s.owed = .bootstrapDone n :: s'.owed)
  /-- `Bootstrap` terminates a node that was marked done. -/
  | preDone (n : JobID) (rest : List Call) (hs : (s.dag.jobs n).status = .done)
      (hv : s'.dag.view = s.dag.view.settle n .finished (s.dag.jobs n).retries)
      (hc : s'.clusters = s.clusters) (hp : ∀ m, s'.places m = s.places m)
      (ho : s.owed = .bootstrapDone n :: rest)
      (ho' : s'.owed = (s.dag.jobs n).children.elems.map (Call.releaseChild true n) ++ rest)
  /-- `Bootstrap` starts a node that can be submitted. -/
  | looked (n : JobID) (hn : s.calls.head? = some (.bootstrapStart n))
      (hv : s'.dag.view = s.dag.view) (hc : s'.clusters = s.clusters)
      (hp : ∀ m, s'.places m =
        s.places m + if m = n ∧ (s.dag.jobs n).canSubmit = true then 1 else 0)
      (ho : s.owed = .bootstrapStart n :: s'.owed)
  | preStarted (n : JobID) (hs : (s.dag.jobs n).canSubmit = true)
      (hv : s'.dag.view = s.dag.view.settle n .prerun (s.dag.jobs n).retries)
      (hc : s'.clusters = s.clusters)
      (hp : ∀ m, s.places m = s'.places m + if m = n then 1 else 0) (ho : s'.owed = s.owed)
  | released (b : Bool) (p c : JobID) (hn : c < s.dag.numNodes)
      (hv : s'.dag.view = s.dag.view.release p c) (hc : s'.clusters = s.clusters)
      (hp : ∀ m, s'.places m = s.places m +
        if m = c ∧ b = false ∧ (s'.dag.jobs c).canSubmit = true then 1 else 0)
      (ho : s.owed = .releaseChild b p c :: s'.owed)
  | scriptEnded (post : Bool) (n : JobID) (fate : View.Fate) (k : Nat)
      (hs : (s.dag.jobs n).status = if post then .postrun else .prerun)
      (hfate : fate ≠ .prerun)
      (hlost : fate = .lost → ∃ a, l = .exec a ∧ a.postMonitored = false)
      (hv : s'.dag.view = (s.dag.view.leave post).settle n fate k)
      (hc : s'.clusters = s.clusters)
      (hp : ∀ m, s'.places m = s.places m + if m = n then fate.places else 0)
      (ho : s'.owed = fate.owed n (s.dag.jobs n).children ++ s.owed)
  /-- The final node is started; a submit event that does not fit may wait behind it. -/
  | finalStarted (f : JobID) (extra : List Call) (hf : s.dag.finalJob = some f)
      (hs : (s.dag.jobs f).status = .notReady) (hv : s'.dag.view = s.dag.view.startFinal f)
      (hc : s'.clusters = s.clusters)
      (hp : ∀ m, s'.places m ≤ s.places m + if m = f then 1 else 0)
      (ho : s'.owed = extra ++ s.owed)
      (hextra : extra = [] ∨ ∃ i p c, extra = [.recordSubmit i p] ∧ s.clusters[i]? = some c ∧
        c.procs[p]? = some .pending ∧ s.dag.clusterMatches c.node c.key = false)
  | submitSeen (i p : Nat) (c : Cluster) (count : Bool) (extra : List Call)
      (hi : s.clusters[i]? = some c) (hpr : c.procs[p]? = some .pending)
      (hw : (s.dag.jobs c.node).waiting.isEmpty = true)
      (hh : s.dag.view.hash c.key = none ∨ s.dag.view.hash c.key = some c.node)
      (hcount : s.dag.clusterMatches c.node c.key = true → count = true)
      (hv : s'.dag.view = s.dag.view.seeSubmit c.node c.key count)
      (hc : s'.clusters = s.clusters.set i { c with procs := c.procs.set p .queued })
      (hp : ∀ m, s'.places m = s.places m) (ho : s.owed = extra ++ s'.owed)
      (hextra : extra = [] ∨ extra = [.recordSubmit i p])
  /-- The end of a proc whose node has forgotten its ID. -/
  | orphaned (i p : Nat) (c : Cluster) (hi : s.clusters[i]? = some c)
      (hpr : c.procs[p]? = some .queued) (hh : s.dag.view.hash c.key = none)
      (hv : s'.dag.view = s.dag.view)
      (hc : s'.clusters = s.clusters.set i { c with procs := c.procs.set p .ended })
      (hp : ∀ m, s'.places m = s.places m) (ho : s'.owed = s.owed)
  | ended (i p : Nat) (c : Cluster) (n : JobID) (result : ProcEnd) (a : Answer)
      (monitored : Bool) (hl : l = .act (.endEvent i p result a))
      (hi : s.clusters[i]? = some c) (hpr : c.procs[p]? = some .queued)
      (hh : s.dag.view.hash c.key = some n) (hm : a.postMonitored = true → monitored = true)
      (hv : s'.dag.view = (s.dag.view.endProc n).handle n ((s.dag.jobs n).afterEnd result)
        (procEndFate ((s.dag.jobs n).afterEnd result) result.failed monitored))
      (hc : s'.clusters = s.clusters.set i { c with procs := c.procs.set p .ended })
      (hp : ∀ m, s'.places m = s.places m + if m = n then
        fatePlaces (procEndFate ((s.dag.jobs n).afterEnd result) result.failed monitored) else 0)
      (ho : s'.owed = fateOwed n (s.dag.jobs n).children
        (procEndFate ((s.dag.jobs n).afterEnd result) result.failed monitored) ++ s.owed)
  /-- The end of a proc aborts the DAG, and the final node is started. -/
  | endedFinal (i p : Nat) (c : Cluster) (n f : JobID) (result : ProcEnd) (a : Answer)
      (v : View) (hl : l = .act (.endEvent i p result a)) (ht : ∃ t, result = .terminated t)
      (hi : s.clusters[i]? = some c) (hpr : c.procs[p]? = some .queued)
      (hh : s.dag.view.hash c.key = some n) (hpost : (s.dag.jobs n).scriptPost = false)
      (hab : (s.dag.jobs n).abortDagVal = some ((s.dag.jobs n).afterEnd result).retval)
      (hf : s.dag.finalJob = some f) (hs : (v.node f).status = .notReady)
      (hv : v = (s.dag.view.endProc n).handle n ((s.dag.jobs n).afterEnd result) none)
      (hv' : s'.dag.view = v.startFinal f)
      (hc : s'.clusters = s.clusters.set i { c with procs := c.procs.set p .ended })
      (hp : ∀ m, s'.places m ≤ s.places m + if m = f then 1 else 0) (ho : s'.owed = s.owed)
  | submitted (n : JobID) (key : EventKey) (moreProcs : Nat) (hn : s.submits o = some n)
      (hs : (s.dag.jobs n).status = .ready) (hr : s.places n ≠ 0)
      (hend : ∃ count, s.dag.cycleEnds o count = false) (hthr : s.dag.throttled n = false)
      (hh : (Dag.attempt s.dag.view n).hash key = none)
      (hv : s'.dag.view = (((Dag.attempt s.dag.view n).setNode n
        { (Dag.attempt s.dag.view n).node n with status := .submitted }).countJob n 1).assign n key)
      (hc : s'.clusters = s.clusters ++ [⟨key,n,List.replicate (moreProcs + 1) .pending⟩])
      (hp : ∀ m, s.places m = s'.places m + if m = n then 1 else 0) (ho : s'.owed = s.owed)
  | attempted (n : JobID) (fate : View.Fate) (k : Nat) (hn : s.submits o = some n)
      (hs : (s.dag.jobs n).status = .ready) (hr : s.places n ≠ 0)
      (hfate : fate = .queued ∨ fate = .failed ∨ fate = .postrun ∨ fate = .lost)
      (hlost : fate = .lost →
        ∃ a, l = .exec a ∧ (a.monitored = false ∨ a.postMonitored = false))
      (hv : s'.dag.view = (Dag.attempt s.dag.view n).settle n fate k)
      (hc : s'.clusters = s.clusters)
      (hp : ∀ m, s'.places m + (if m = n then 1 else 0) =
        s.places m + if m = n then fate.places else 0) (ho : s'.owed = s.owed)
  /-- `runSubmitDag` failed, and the node is forgotten. -/
  | dropped (n : JobID) (hn : s.submits o = some n) (hs : (s.dag.jobs n).status = .ready)
      (hr : s.places n ≠ 0) (hd : ∃ a, l = .exec a ∧ a.subdagSubmitted = false)
      (hv : s'.dag.view = Dag.attempt s.dag.view n) (hc : s'.clusters = s.clusters)
      (hp : ∀ m, s.places m = s'.places m + if m = n then 1 else 0) (ho : s'.owed = s.owed)

private theorem placesIn_release (b : Bool) (n m : JobID) (children : List JobID) :
    placesIn (children.map (Call.releaseChild b n)) m = 0 := by
  apply placesIn_eq_zero
  intro call hcall
  obtain ⟨c,-,rfl⟩ := List.mem_map.mp hcall
  rfl

namespace Dag

theorem Settled.places {v : View} {n : JobID} {fate : View.Fate} {k : Nat} {r : Dag × List Call}
    (h : Settled v n fate k r) (m : JobID) :
    r.1.view.ready m + placesIn r.2 m = v.ready m + if m = n then fate.places else 0 := by
  have hready : r.1.view.ready m = v.ready m + if m = n ∧ fate = .queued then 1 else 0 := by
    rw [h.1]
    by_cases hm : m = n
    · subst hm
      cases fate <;> simp [View.settle,View.setNode]
    · cases fate <;> simp [View.settle,View.setNode,hm]
  have hcalls : placesIn r.2 m = if m = n ∧ fate = .restarted then 1 else 0 := by
    rw [← placesIn_filter,h.2]
    cases fate with
    | restarted => simp [callsOf,Call.places,eq_comm]
    | finished =>
      rw [callsOf,placesIn_release]
      simp
    | _ => simp [callsOf]
  rw [hready,hcalls]
  cases fate <;> simp [View.Fate.places]

theorem Settled.owed {v : View} {n : JobID} {fate : View.Fate} {k : Nat} {r : Dag × List Call}
    (h : Settled v n fate k r) : r.2.filter Call.owed = fate.owed n (v.node n).children := by
  rw [← owed_filter,h.2]
  cases fate with
  | finished =>
    apply List.filter_eq_self.mpr
    intro call hcall
    obtain ⟨c,-,rfl⟩ := List.mem_map.mp hcall
    rfl
  | _ => rfl

end Dag

namespace System

private theorem places_push (s : System) (r : Dag × List Call) (m : JobID) :
    (s.push r).places m = r.1.view.ready m + placesIn r.2 m + placesIn s.calls m := by
  simp only [places,push,placesIn_append]
  omega

private theorem owed_push (s : System) (r : Dag × List Call) :
    (s.push r).owed = r.2.filter Call.owed ++ s.owed := filter_append ..

section Push

variable {o : Options} {l : Label} {s s0 : System}

private theorem places_before {old : List Call} (hs : s.calls = old ++ s0.calls)
    (hold : old.filter Call.moves = [])
    (m : JobID) : s.places m = s.dag.view.ready m + placesIn s0.calls m := by
  have hz : placesIn old m = 0 := by rw [← placesIn_filter,hold]; rfl
  rw [places,hs,placesIn_append,hz,Nat.zero_add]

private theorem owed_before {old : List Call} (hs : s.calls = old ++ s0.calls)
    (hold : old.filter Call.moves = []) :
    s.owed = s0.owed := by
  have hz : old.filter Call.owed = [] := by rw [← owed_filter,hold]; rfl
  rw [owed,hs,filter_append,hz]
  rfl

variable {r : Dag × List Call}

private theorem moves_quiet (old : List Call) (hs : s.calls = old ++ s0.calls)
    (hold : old.filter Call.moves = []) (hc : s0.clusters = s.clusters)
    (hv : r.1.view = s.dag.view) (hr : r.2.filter Call.moves = []) :
    Moves o s l (s0.push r) := by
  have hpl (m : JobID) : placesIn r.2 m = 0 := by rw [← placesIn_filter,hr]; rfl
  have how : r.2.filter Call.owed = [] := by rw [← owed_filter,hr]; rfl
  refine .quiet ?_ hc (fun m => ?_) ?_
  · change r.1.view = { s.dag.view with ready := r.1.view.ready }
    rw [hv]
  · rw [places_push,hv,hpl,places_before hs hold,Nat.add_zero]
  · rw [owed_push,how,owed_before hs hold]
    rfl

private theorem moves_scriptEnded (post : Bool) (old : List Call) {n : JobID} {fate : View.Fate}
    {k : Nat} (hs : s.calls = old ++ s0.calls) (hold : old.filter Call.moves = [])
    (hc : s0.clusters = s.clusters)
    (hst : (s.dag.jobs n).status = if post then .postrun else .prerun) (hfate : fate ≠ .prerun)
    (hlost : fate = .lost → ∃ a, l = .exec a ∧ a.postMonitored = false)
    (hset : Dag.Settled (s.dag.view.leave post) n fate k r) : Moves o s l (s0.push r) := by
  have hready : (s.dag.view.leave post).ready = s.dag.view.ready := by cases post <;> rfl
  have hchildren : ((s.dag.view.leave post).node n).children = (s.dag.jobs n).children := by
    cases post <;> rfl
  refine .scriptEnded post n fate k hst hfate hlost hset.1 hc (fun m => ?_) ?_
  · rw [places_push,hset.places,hready,places_before hs hold]
    omega
  · rw [owed_push,hset.owed,hchildren,owed_before hs hold]

private theorem moves_finalStarted (old : List Call) (hs : s.calls = old ++ s0.calls)
    (hold : old.filter Call.moves = []) (hc : s0.clusters = s.clusters)
    (hr : s.dag.startFinalNode = some r) : Moves o s l (s0.push r) := by
  obtain ⟨f,hf,hst,hv,hcalls⟩ := Dag.startFinalNode_view hr
  refine .finalStarted f [] hf hst hv hc (fun m => ?_) ?_ (.inl rfl)
  · rw [places_push,hv,hcalls,places_before hs hold]
    have hready : (s.dag.view.startFinal f).ready m ≤ s.dag.view.ready m := by
      simp only [View.startFinal]
      split
      · exact Nat.le_refl _
      · exact Nat.zero_le _
    have hcall : placesIn [.startNode f false,.finalNodeStarted] m = if m = f then 1 else 0 := by
      simp [Call.places,eq_comm]
    rw [hcall]
    omega
  · rw [owed_push,hcalls,owed_before hs hold]
    rfl

end Push

variable {a : Answer}

private theorem dagCall_moves {o : Options} {s : System} {call : Call} {rest : List Call}
    {r : Dag × List Call} (hs : s.calls = call :: rest) (h : dagCall o a s.dag call = some r) :
    Moves o s (.exec a) ({ s with calls := rest }.push r) := by
  have hpl (m : JobID) : s.places m = s.dag.view.ready m + call.places m + placesIn rest m := by
    rw [places,hs,placesIn_cons]
    omega
  have how : s.owed = [call].filter Call.owed ++ rest.filter Call.owed := by
    rw [owed,hs]
    exact filter_append [call] rest
  cases call with
  | startNode n isRetry =>
    obtain ⟨hcan,fate,hfate,hset⟩ := Dag.startNode_settles h
    rcases hfate with rfl | rfl
    · refine .preStarted n hcan hset.1 rfl (fun m => ?_) ?_
      · rw [places_push,hset.places,hpl]
        simp only [Call.places,View.Fate.places,eq_comm (a := n)]
        split <;> omega
      · rw [owed_push,hset.owed,how]
        rfl
    · -- from a pending start into the ready queue
      have hst : (s.dag.view.node n).status = .ready := (Job.canSubmit_iff.mp hcan).2
      refine .quiet ?_ rfl (fun m => ?_) ?_
      · change r.1.view = { s.dag.view with ready := r.1.view.ready }
        rw [hset.1]
        have hx : ({ s.dag.view.node n with
            status := .ready, retries := (s.dag.jobs n).retries } : NodeView) =
            s.dag.view.node n := by
          rw [← hst]
          rfl
        dsimp only [View.settle,View.Fate.status]
        rw [hx,View.setNode_eq_self]
      · rw [places_push,hset.places,hpl]
        simp only [Call.places,View.Fate.places,eq_comm (a := n)]
      · rw [owed_push,hset.owed,how]
        rfl
  | releaseChild b p c =>
    obtain ⟨hn,hv,hcalls⟩ := Dag.releaseChild_view h
    refine .released b p c hn hv rfl (fun m => ?_) ?_
    · rw [places_push,hv,hcalls,hpl]
      have hready : (s.dag.view.release p c).ready m = s.dag.view.ready m := rfl
      have hjobs : ((({ s with calls := rest } : System).push r).dag.jobs c).canSubmit =
        (r.1.jobs c).canSubmit := rfl
      rw [hready,hjobs]
      cases b with
      | true => simp [Call.places]
      | false =>
        cases (r.1.jobs c).canSubmit with
        | false => simp [Call.places]
        | true =>
          simp only [Bool.not_false,Bool.and_self,if_true,placesIn_cons,placesIn_nil,Call.places,
            and_self,and_true,eq_comm (a := c)]
          omega
    · have hz : r.2.filter Call.owed = [] := by
        rw [hcalls]
        split <;> rfl
      rw [owed_push,hz,how]
      rfl
  | preScriptReaper n status =>
    obtain ⟨hst,fate,k,hfate,hlost,hset⟩ := Dag.preScriptReaper_settles h
    exact moves_scriptEnded false [.preScriptReaper n status] hs rfl rfl hst hfate
      (fun hf => ⟨a,rfl,hlost hf⟩) hset
  | runWaitingScript post =>
    obtain rfl := some.inj h
    obtain ⟨hv,hc⟩ := Dag.view_runWaitingScript o a post s.dag
    exact moves_quiet [.runWaitingScript post] hs rfl rfl hv hc
  | runAllWaitingScripts =>
    obtain rfl := some.inj h
    obtain ⟨hv,hc⟩ := Dag.view_runWaitingScript o a false s.dag
    refine moves_quiet [.runAllWaitingScripts] hs rfl rfl hv ?_
    dsimp only
    rw [filter_append,hc]
    split <;> rfl
  | checkForDagAbort n =>
    simp only [dagCall,Dag.checkForDagAbort] at h
    split at h
    · exact moves_finalStarted [.checkForDagAbort n] hs rfl rfl h
    · obtain rfl := some.inj h
      exact moves_quiet [.checkForDagAbort n] hs rfl rfl rfl rfl
  | processNotIdleEvent n =>
    obtain rfl := some.inj h
    exact moves_quiet [.processNotIdleEvent n] hs rfl rfl
      (Dag.view_processNotIdleEvent n s.dag) rfl
  | finalNodeStarted =>
    obtain rfl := some.inj h
    exact moves_quiet [.finalNodeStarted] hs rfl rfl rfl rfl
  | bootstrapDone n =>
    simp only [dagCall] at h
    split at h
    · next hst =>
      obtain ⟨hv,hcalls⟩ := Dag.terminateJob_view h
      refine .preDone n (rest.filter Call.owed) hst hv rfl (fun m => ?_) how ?_
      · rw [places_push,hv,hcalls,hpl,placesIn_release]
        rfl
      · have hself : r.2.filter Call.owed = r.2 := by
          apply List.filter_eq_self.mpr
          intro call hcall
          rw [hcalls] at hcall
          obtain ⟨c,-,rfl⟩ := List.mem_map.mp hcall
          rfl
        rw [owed_push,hself,hcalls]
        rfl
    · next hst =>
      obtain rfl := some.inj h
      refine .skipped n hst rfl rfl (fun m => ?_) how
      rw [places_push,hpl]
      rfl
  | bootstrapStart n =>
    obtain rfl := some.inj h
    refine .looked n (by rw [hs]; rfl) rfl rfl (fun m => ?_) ?_
    · rw [places_push,hpl]
      dsimp only
      cases (s.dag.jobs n).canSubmit with
      | false => simp [Call.places]
      | true =>
        simp only [if_true,placesIn_cons,placesIn_nil,Call.places,and_true,eq_comm (a := n)]
        omega
    · have hz : (if (s.dag.jobs n).canSubmit = true then [Call.startNode n false] else []).filter
          Call.owed = [] := by
        split <;> rfl
      rw [owed_push,how]
      dsimp only
      rw [hz]
      rfl
  | returnDeferred deferred =>
    obtain rfl := some.inj h
    obtain ⟨hv,hready⟩ := Dag.returnDeferred_ready deferred s.dag
    refine .quiet hv rfl (fun m => ?_) ?_
    · rw [places_push,hpl]
      dsimp only
      rw [hready]
      rfl
    · rw [owed_push,how]
      rfl
  | recordSubmit | postScriptReaper | submitLoop => simp [dagCall] at h

variable {cluster proc : Nat}

private theorem recordSubmit_moves {o : Options} {l : Label} {s s0 s' : System} {old : List Call}
    {sane : Bool} (hs : s.calls = old ++ s0.calls)
    (hold : old = [] ∨ old = [.recordSubmit cluster proc]) (hd : s0.dag = s.dag)
    (hc : s0.clusters = s.clusters) (hsane : sane = true ∨ ∀ c, s.clusters[cluster]? = some c →
      s.dag.clusterMatches c.node c.key = false)
    (h : s0.recordSubmit cluster proc sane = some s') : Moves o s l s' := by
  unfold recordSubmit at h
  obtain ⟨r,hadv,h⟩ := Option.bind_eq_some_iff.mp h
  obtain ⟨d',hd',rfl⟩ := Option.map_eq_some_iff.mp h
  unfold advanceProc at hadv
  rw [hc] at hadv
  split at hadv
  · simp at hadv
  · next c hi =>
    split at hadv
    · next hpr =>
      obtain rfl := some.inj hadv
      obtain ⟨hw,hh,hv⟩ := Dag.recordSubmit_view hd'
      rw [hd] at hw hh hv
      have hz (m : JobID) : placesIn old m = 0 := by
        rcases hold with rfl | rfl <;> rfl
      refine .submitSeen cluster proc c _ old hi hpr hw hh (fun hmatch => ?_) hv rfl
        (fun m => ?_) ?_ hold
      · rcases hsane with rfl | hno
        · rfl
        · rw [hno c hi] at hmatch
          simp at hmatch
      · have hready : d'.view.ready m = s.dag.view.ready m := by
          rw [hv]
          rfl
        rw [places,places,hs,placesIn_append,hz]
        dsimp only
        rw [hready]
        omega
      · have ho : old.filter Call.owed = old := by
          rcases hold with rfl | rfl <;> rfl
        rw [owed,hs,filter_append,ho]
        rfl
    · simp at hadv

private theorem execCall_moves {o : Options} {s s' : System} {call : Call}
    {rest : List Call} (hs : s.calls = call :: rest)
    (h : { s with calls := rest }.execCall o a call = some s') : Moves o s (.exec a) s' := by
  have hpl (m : JobID) : s.places m = s.dag.view.ready m + call.places m + placesIn rest m := by
    rw [places,hs,placesIn_cons]
    omega
  have how : s.owed = [call].filter Call.owed ++ rest.filter Call.owed := by
    rw [owed,hs]
    exact filter_append [call] rest
  cases call with
  | recordSubmit cluster proc =>
    have hs' : s.calls =
        [.recordSubmit cluster proc] ++ ({ s with calls := rest } : System).calls := hs
    exact recordSubmit_moves hs' (.inr rfl) rfl rfl (.inl rfl) h
  | postScriptReaper n status =>
    simp only [execCall,Dag.postScriptReaper] at h
    obtain ⟨r,hr,rfl⟩ := Option.map_eq_some_iff.mp h
    split at hr
    · simp at hr
    · split at hr
      · obtain ⟨r',hr',rfl⟩ := Option.map_eq_some_iff.mp hr
        obtain ⟨hst,fate,k,hfate,hset⟩ := Dag.processPostTermEvent_settles hr'
        refine moves_scriptEnded true [.postScriptReaper n status] hs rfl rfl hst ?_ ?_
          hset
        · rcases hfate with rfl | rfl | rfl <;> simp
        · rcases hfate with rfl | rfl | rfl <;> simp
      · split at hr
        · -- the event goes into the log
          obtain rfl := some.inj hr
          refine .quiet rfl rfl (fun m => ?_) ?_
          · rw [hpl]
            rfl
          · rw [how]
            rfl
        · obtain ⟨r',hr',rfl⟩ := Option.map_eq_some_iff.mp hr
          exact moves_finalStarted [.postScriptReaper n status] hs rfl rfl hr'
  | submitLoop deferred count =>
    simp only [execCall] at h
    obtain ⟨r,hr,rfl⟩ := Option.map_eq_some_iff.mp h
    have hgo {call : Call} (hcall : Dag.goesOn deferred call) :
        (∀ m, call.places m = deferred.occurrences m) ∧ call.owed = false := by
      rcases hcall with ⟨count,rfl⟩ | rfl
      · exact ⟨fun m => rfl,rfl⟩
      · exact ⟨fun m => rfl,rfl⟩
    have hcur (m : JobID) : s.places m =
        s.dag.view.ready m + deferred.occurrences m + placesIn rest m := hpl m
    rcases Dag.submitRound_cases hr with ⟨hnone,hv,ho,hready⟩ |
        ⟨n,call,hn,hne,hst,hend,hthr,hcall,hcases⟩
    · rw [hnone]
      refine .quiet hv rfl (fun m => ?_) ?_
      · rw [places_push]
        dsimp only
        rw [hready,hcur]
      · rw [owed_push]
        dsimp only
        rw [ho,how]
        rfl
    · have hsub : s.submits o = some n := by
        rw [submits,hs]
        exact hn
      have hpos : 0 < s.dag.view.ready n := Nat.pos_of_ne_zero hne
      have hplace : s.places n ≠ 0 := by
        rw [hcur]
        omega
      -- the node leaves the ready queue
      have htake (m : JobID) : (Dag.attempt s.dag.view n).ready m + (if m = n then 1 else 0) =
          s.dag.view.ready m := by
        have hf : (Dag.attempt s.dag.view n).ready =
            update s.dag.view.ready n (s.dag.view.ready n - 1) := by
          unfold Dag.attempt View.forget
          split <;> rfl
        rw [hf]
        by_cases hm : m = n
        · subst hm
          simp only [update_self,if_true]
          omega
        · simp [hm]
      have hfree (m : JobID) : placesIn [call] m = deferred.occurrences m := by
        rw [placesIn_cons,placesIn_nil,(hgo hcall).1]
        rfl
      have hclear : [call].filter Call.owed = [] := by simp [(hgo hcall).2]
      rcases hcases with ⟨key,moreProcs,hh,hv,hcalls,hsome⟩ |
          ⟨hnone,fate,k,calls,hfate,hset,hcalls⟩ | ⟨hnone,hdrop,hv,hcalls⟩
      · rw [hsome]
        refine .submitted n key moreProcs hsub hst hplace ⟨count,hend⟩ hthr hh hv rfl
          (fun m => ?_) ?_
        · change _ = (System.push _ (r.1,r.2.1)).places m + _
          rw [places_push]
          dsimp only
          rw [hv,hcalls,hfree,hcur,← htake m]
          simp only [View.assign,View.countJob,View.setNode]
          omega
        · change (System.push _ (r.1,r.2.1)).owed = _
          rw [owed_push]
          dsimp only
          rw [hcalls,hclear,how]
          rfl
      · rw [hnone]
        refine .attempted n fate k hsub hst hplace ?_ ?_ hset.1 rfl (fun m => ?_) ?_
        · rcases hfate with h | h | h | ⟨h,-⟩ <;> simp [h]
        · intro hl
          rcases hfate with h | h | h | ⟨-,h⟩
          · simp [h] at hl
          · simp [h] at hl
          · simp [h] at hl
          · exact ⟨a,rfl,h⟩
        · have hp := hset.places m
          have ht := htake m
          dsimp only at hp
          rw [places_push]
          dsimp only
          rw [hcalls,placesIn_append,hfree,hcur]
          omega
        · rw [owed_push]
          dsimp only
          have ho := hset.owed
          dsimp only at ho
          have hnil : fate.owed n ((Dag.attempt s.dag.view n).node n).children = [] := by
            rcases hfate with h | h | h | ⟨h,-⟩ <;> rw [h] <;> rfl
          rw [hcalls,filter_append,ho,hnil,hclear,how]
          rfl
      · rw [hnone]
        refine .dropped n hsub hst hplace ⟨a,rfl,hdrop⟩ hv rfl (fun m => ?_) ?_
        · rw [places_push]
          dsimp only
          rw [hv,hcalls,hfree,hcur,← htake m]
          omega
        · rw [owed_push]
          dsimp only
          rw [hcalls,hclear,how]
          rfl
  | _ =>
    simp only [execCall] at h
    obtain ⟨r,hr,rfl⟩ := Option.map_eq_some_iff.mp h
    exact dagCall_moves hs hr

private theorem submitEvent_moves {o : Options} {l : Label} {s s' : System}
    (h : s.submitEvent o cluster proc = some s') : Moves o s l s' := by
  unfold submitEvent at h
  split at h
  · simp at h
  · next c hi =>
    split at h
    · simp at h
    next hpend =>
    split at h
    · exact recordSubmit_moves (nil_append _).symm (.inl rfl) rfl rfl (.inl rfl) h
    · next hno =>
      have hno : s.dag.clusterMatches c.node c.key = false := by simpa using hno
      split at h
      · obtain ⟨r,hr,rfl⟩ := Option.map_eq_some_iff.mp h
        obtain ⟨f,hf,hst,hv,hcalls⟩ := Dag.startFinalNode_view hr
        refine .finalStarted f [.recordSubmit cluster proc] hf hst hv rfl (fun m => ?_) ?_
          (.inr ⟨cluster,proc,c,rfl,hi,not_not.mp hpend,hno⟩)
        · have hready : (s.dag.view.startFinal f).ready m ≤ s.dag.view.ready m := by
            simp only [View.startFinal]
            split
            · exact Nat.le_refl _
            · exact Nat.zero_le _
          have hcall : placesIn [.startNode f false,.finalNodeStarted,
            .recordSubmit cluster proc] m =
              if m = f then 1 else 0 := by
            simp [Call.places,eq_comm]
          rw [places_push,hv,hcalls,places,cons_append,cons_append,nil_append,hcall]
          omega
        · rw [owed_push,hcalls]
          rfl
      · refine recordSubmit_moves (nil_append _).symm (.inl rfl) rfl rfl (.inr ?_) h
        intro c' hc'
        obtain rfl : c = c' := some.inj (hi.symm.trans hc')
        exact hno

private theorem endEvent_moves {o : Options} {s s' : System} {result : ProcEnd}
    (h : s.endEvent o cluster proc result a = some s') :
    Moves o s (.act (.endEvent cluster proc result a)) s' := by
  unfold endEvent at h
  obtain ⟨r,hadv,h⟩ := Option.bind_eq_some_iff.mp h
  obtain ⟨node,hnode,h⟩ := Option.bind_eq_some_iff.mp h
  unfold advanceProc at hadv
  split at hadv
  · simp at hadv
  · next c hi =>
    split at hadv
    · next hpr =>
      obtain rfl := some.inj hadv
      unfold Dag.findNodeByEventID at hnode
      cases hh : s.dag.eventIDHash c.key with
      | none =>
        rw [hh] at hnode
        obtain rfl := some.inj hnode
        obtain rfl := some.inj h
        exact .orphaned cluster proc c hi hpr hh rfl rfl (fun _ => rfl) rfl
      | some n =>
        rw [hh] at hnode
        dsimp only at hnode
        split at hnode
        · obtain rfl := some.inj hnode
          obtain ⟨r,hr,rfl⟩ := Option.map_eq_some_iff.mp h
          have hkeep : [Call.processNotIdleEvent n].filter Call.moves = [] := rfl
          rcases Dag.procEnd_cases hr with ⟨monitored,hm,hhandled⟩ | ⟨d2,ht,hd2,hpost,hab,hfinal⟩
          · generalize hfate : procEndFate ((s.dag.jobs n).afterEnd result) result.failed
              monitored = fate at hhandled
            have hready : (s.dag.view.endProc n).ready = s.dag.view.ready := by
              unfold View.endProc
              dsimp only
              split <;> rfl
            have hchildren : ((s.dag.view.endProc n).node n).children =
                (s.dag.jobs n).children := by
              unfold View.endProc
              dsimp only
              split
              · simp [View.countJob,View.setNode]
                rfl
              · simp [View.setNode]
                rfl
            refine .ended cluster proc c n result a monitored rfl hi hpr hh hm ?_ rfl ?_ ?_
            · rw [hfate]
              cases fate with
              | some | none => exact hhandled.1
            · intro m
              rw [places_push,hfate]
              dsimp only
              rw [placesIn_append]
              have hz : placesIn [Call.processNotIdleEvent n] m = 0 := rfl
              rw [hz,places]
              cases fate with
              | some fate =>
                have hp := Dag.Settled.places hhandled m
                rw [hready] at hp
                simp only [fatePlaces]
                omega
              | none =>
                have hp : placesIn r.2 m = 0 := by rw [← placesIn_filter,hhandled.2]; rfl
                rw [hp,hhandled.1]
                simp only [fatePlaces,View.setNode,hready]
                simp
            · rw [owed_push,hfate]
              dsimp only
              rw [filter_append]
              cases fate with
              | some fate =>
                rw [Dag.Settled.owed hhandled,hchildren]
                simp only [fateOwed]
                exact congrArg (· ++ s.owed) (append_nil _)
              | none =>
                have ho : r.2.filter Call.owed = [] := by rw [← owed_filter,hhandled.2]; rfl
                rw [ho]
                rfl
          · obtain ⟨f,hf,hst,hv,hcalls⟩ := Dag.startFinalNode_view hfinal
            have hview : d2.view = (s.dag.view.endProc n).handle n
              ((s.dag.jobs n).afterEnd result) none := hd2
            have hkept : d2.view.finalJob = s.dag.finalJob ∧
                d2.view.ready = s.dag.view.ready := by
              rw [hd2]
              unfold View.endProc
              dsimp only
              split
              · exact ⟨rfl,rfl⟩
              · exact ⟨rfl,rfl⟩
            refine .endedFinal cluster proc c n f result a d2.view rfl ht hi hpr hh hpost hab
              (hkept.1.symm.trans hf) hst hview hv rfl (fun m => ?_) ?_
            · have hready : (d2.view.startFinal f).ready m ≤ s.dag.view.ready m := by
                simp only [View.startFinal]
                split
                · exact Nat.le_of_eq (congrFun hkept.2 m)
                · exact Nat.zero_le _
              have hcall : placesIn [.startNode f false,.finalNodeStarted,
                .processNotIdleEvent n] m =
                  if m = f then 1 else 0 := by
                simp [Call.places,eq_comm]
              rw [places_push,hv,hcalls,places,cons_append,cons_append,nil_append,
                hcall]
              dsimp only
              omega
            · rw [owed_push,hcalls]
              rfl
        · simp at hnode
    · simp at hadv

private theorem postEvent_moves {o : Options} {l : Label} {s s' : System} {index : Nat}
    (h : s.postEvent index = some s') : Moves o s l s' := by
  unfold postEvent at h
  split at h
  · simp at h
  · next e he =>
    dsimp only at h
    obtain ⟨node,-,h⟩ := Option.bind_eq_some_iff.mp h
    cases node with
    | none =>
      obtain rfl := some.inj h
      exact .quiet rfl rfl (fun _ => rfl) rfl
    | some n =>
      obtain ⟨r,hr,rfl⟩ := Option.map_eq_some_iff.mp h
      obtain ⟨hst,fate,k,hfate,hset⟩ := Dag.processPostTermEvent_settles hr
      refine moves_scriptEnded true [] (nil_append _).symm rfl rfl hst ?_ ?_ hset
      · rcases hfate with rfl | rfl | rfl <;> simp
      · rcases hfate with rfl | rfl | rfl <;> simp

private theorem quietEvent_moves {o : Options} {l : Label} {s s' : System}
    {event : QuietEvent} (h : s.quietEvent cluster proc event = some s') : Moves o s l s' := by
  unfold quietEvent at h
  obtain ⟨r,-,h⟩ := Option.bind_eq_some_iff.mp h
  obtain ⟨node,-,rfl⟩ := Option.map_eq_some_iff.mp h
  cases node with
  | none => exact .quiet rfl rfl (fun _ => rfl) rfl
  | some n =>
    have hquiet (d : Dag) (hv : d.view = s.dag.view) : Moves o s l { s with dag := d } := by
      refine .quiet ?_ rfl (fun m => ?_) rfl
      · dsimp only
        rw [hv]
      · simp only [places,hv]
    apply hquiet
    cases event with
    | idle => exact Dag.view_processIsIdleEvent n s.dag
    | notIdle => exact Dag.view_processNotIdleEvent n s.dag
    | held =>
      exact (Dag.view_processIsIdleEvent n _).trans (Dag.view_processHeldEvent n s.dag)
    | released => exact Dag.view_processReleasedEvent n s.dag

private theorem scriptReaper_moves {o : Options} {l : Label} {s s' : System} {post : Bool}
    {n : JobID}
    {status : WaitStatus} (h : s.scriptReaper post n status = some s') : Moves o s l s' := by
  unfold scriptReaper at h
  dsimp only at h
  split at h
  · obtain rfl := some.inj h
    refine moves_quiet [] (nil_append _).symm rfl rfl ?_ ?_
    · dsimp only
      split
      · exact Dag.view_setScriptQ ..
      · exact (Dag.view_modify_quiet _ n rfl).trans (Dag.view_setScriptQ ..)
    · cases post <;> rfl
  · simp at h

private theorem runAct_moves {o : Options} {s s' : System} {action : Action}
    (h : s.runAct o action = some s') : Moves o s (.act action) s' := by
  cases action with
  | submitReadyJobs now haltFile =>
    obtain rfl := some.inj h
    refine moves_quiet [] (nil_append _).symm rfl rfl ?_ ?_
    · unfold Dag.submitReadyJobs
      dsimp only
      split
      · rfl
      · split <;> rfl
    · unfold Dag.submitReadyJobs
      dsimp only
      split
      · rfl
      · split
        · rfl
        · dsimp only
          split <;> rfl
  | submitEvent cluster proc => exact submitEvent_moves h
  | endEvent cluster proc result a => exact endEvent_moves h
  | postEvent index => exact postEvent_moves h
  | quietEvent cluster proc event => exact quietEvent_moves h
  | scriptReaper post n status => exact scriptReaper_moves h
  | startFinalNode =>
    simp only [runAct] at h
    split at h
    · obtain rfl := some.inj h
      exact .quiet rfl rfl (fun _ => rfl) rfl
    · next r hr =>
      obtain rfl := some.inj h
      exact moves_finalStarted [] (nil_append _).symm rfl rfl hr
  | _ => simp [runAct] at h

theorem step_moves {o : Options} {s s' : System} {l : Label} (hb : s.bootstrapped = true)
    (h : s.step o l = some s') : Moves o s l s' := by
  cases l with
  | act action =>
    simp only [step,hb,if_true] at h
    split at h
    · simp at h
    · exact runAct_moves h
  | exec a =>
    simp only [step] at h
    split at h
    · simp at h
    · next call rest hs => exact execCall_moves hs h

@[simp,grind =] theorem push_bootstrapped (s : System) (r : Dag × List Call) :
    (s.push r).bootstrapped = s.bootstrapped := rfl

private theorem advanceProc_bootstrapped {s : System} {x y : ProcState}
    {r : Cluster × System} (h : s.advanceProc cluster proc x y = some r) :
    r.2.bootstrapped = s.bootstrapped := by
  unfold advanceProc at h
  grind

private theorem recordSubmit_bootstrapped {s s' : System} {sane : Bool}
    (h : s.recordSubmit cluster proc sane = some s') : s'.bootstrapped = s.bootstrapped := by
  unfold recordSubmit at h
  obtain ⟨r,hadv,h⟩ := Option.bind_eq_some_iff.mp h
  obtain ⟨d',-,rfl⟩ := Option.map_eq_some_iff.mp h
  exact advanceProc_bootstrapped hadv

private theorem endEvent_bootstrapped {o : Options} {s s' : System}
    {result : ProcEnd} (h : s.endEvent o cluster proc result a = some s') :
    s'.bootstrapped = s.bootstrapped := by
  unfold endEvent at h
  obtain ⟨r,hadv,h⟩ := Option.bind_eq_some_iff.mp h
  obtain ⟨node,-,h⟩ := Option.bind_eq_some_iff.mp h
  rw [← advanceProc_bootstrapped hadv]
  cases node with
  | none =>
    obtain rfl := some.inj h
    rfl
  | some n =>
    obtain ⟨r',-,rfl⟩ := Option.map_eq_some_iff.mp h
    rfl

private theorem runAct_bootstrapped {o : Options} {s s' : System} {action : Action}
    (h : s.runAct o action = some s') : s'.bootstrapped = s.bootstrapped := by
  cases action with
  | endEvent => exact endEvent_bootstrapped h
  | _ =>
    simp only [runAct,submitEvent,postEvent,quietEvent,scriptReaper] at h
    grind [recordSubmit_bootstrapped,bind_eq_some_iff,map_eq_some_iff]

private theorem execCall_bootstrapped {o : Options} {s s' : System} {call : Call}
    (h : s.execCall o a call = some s') : s'.bootstrapped = s.bootstrapped := by
  cases call with
  | recordSubmit => exact recordSubmit_bootstrapped h
  | _ =>
    simp only [execCall] at h
    grind [map_eq_some_iff]

theorem step_bootstrapped {o : Options} {s s' : System} {l : Label} (hb : s.bootstrapped = true)
    (h : s.step o l = some s') : s'.bootstrapped = true := by
  rw [← hb]
  cases l with
  | act action =>
    simp only [step,hb,if_true] at h
    split at h
    · simp at h
    · exact runAct_bootstrapped h
  | exec a =>
    simp only [step] at h
    split at h
    · simp at h
    · next call rest hs => exact (execCall_bootstrapped h).trans rfl
end System

end Condor.Dagman
