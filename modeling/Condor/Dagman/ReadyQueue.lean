import Condor.Dagman.Clusters
import Condor.Utils.PrioritySimpleList

/-!
# A pass over the ready queue

`SubmitReadyJobs` takes nodes from the front of the ready queue, submits those whose category has
room and puts the others aside.
-/

namespace Condor.Dagman

open Lib Option

namespace PriorityList

private theorem prepend_eq {q : PriorityList} (h : Priority.Sorted q) (n : JobID) (prio : Int) :
    q.prepend n prio = Priority.prepend (n,prio) q := by
  induction q with
  | nil => rfl
  | cons x q ih =>
    obtain ⟨hx,hq⟩ := Priority.sorted_cons.mp h
    rw [prepend]
    split
    · next hle =>
      have hnone : (x :: q).filter (fun y => y.2 < prio) = [] := by
        refine List.filter_eq_nil_iff.mpr fun y hy => ?_
        rcases List.mem_cons.mp hy with rfl | hy
        · simpa using hle
        · simpa using hle.trans (hx y hy)
      have hall : (x :: q).filter (fun y => prio ≤ y.2) = x :: q := by
        refine List.filter_eq_self.mpr fun y hy => ?_
        rcases List.mem_cons.mp hy with rfl | hy
        · simpa using hle
        · simpa using hle.trans (hx y hy)
      rw [Priority.prepend,hnone,hall,List.nil_append]
    · next hlt =>
      rw [Priority.prepend,List.filter_cons_of_pos (by simpa using hlt),
        List.filter_cons_of_neg (by simpa using hlt),List.cons_append,ih hq]
      rfl

theorem foldl_prepend_eq {p : JobID → Int} {items q : PriorityList} (hq : Priority.Sorted q)
    (h : ∀ x ∈ items, x.2 = p x.1) :
    items.foldl (fun q x => q.prepend x.1 (p x.1)) q =
      items.foldl (fun q x => Priority.prepend x q) q := by
  induction items generalizing q with
  | nil => rfl
  | cons x items ih =>
    rw [List.foldl_cons,List.foldl_cons,prepend_eq hq,← h x List.mem_cons_self]
    exact ih (Priority.sorted_prepend hq x) fun y hy => h y (List.mem_cons_of_mem _ hy)

end PriorityList

namespace Dag

/-- What every insertion into the ready queue keeps: the queue is in order, and each node in it
stands under its priority. -/
structure WellKept (d : Dag) : Prop where
  sorted : Priority.Sorted d.readyQ
  current : ∀ x ∈ d.readyQ, x.2 = -(d.jobs x.1).nodePriority

def atLimit (d : Dag) (submitted : List JobID) (n : JobID) : Bool :=
  match (d.jobs n).throttle with
  | none => false
  | some c =>
    match (d.throttles c).maxJobs with
    | none => false
    | some m => (m : Int) ≤ (d.throttles c).currentJobs +
        submitted.countP fun k => (d.jobs k).throttle = some c

/-- Go through a queue: the nodes that are submitted and those that are skipped, because their
category is at its limit by then. -/
def fairPass (d : Dag) : List JobID → PriorityList → PriorityList × PriorityList
  | _, [] => ([],[])
  | submitted, x :: q =>
    if d.atLimit submitted x.1 then
      let r := d.fairPass submitted q
      (r.1,x :: r.2)
    else
      let r := d.fairPass (submitted ++ [x.1]) q
      (x :: r.1,r.2)

variable {d : Dag} {submitted : List JobID}

variable {n : JobID}

private theorem atLimit_mono (more : List JobID) (h : d.atLimit submitted n = true) :
    d.atLimit (submitted ++ more) n = true := by
  rw [atLimit] at h ⊢
  split at h
  · simp at h
  · split at h
    · simp at h
    · rw [List.countP_append]
      have hle := of_decide_eq_true h
      refine decide_eq_true ?_
      omega

theorem fairPass_append (q : PriorityList) (x : JobID × Int) :
    d.fairPass submitted (q ++ [x]) =
      if d.atLimit (submitted ++ (d.fairPass submitted q).1.map Prod.fst) x.1 then
        ((d.fairPass submitted q).1,(d.fairPass submitted q).2 ++ [x])
      else ((d.fairPass submitted q).1 ++ [x],(d.fairPass submitted q).2) := by
  induction q generalizing submitted with
  | nil =>
    rw [List.nil_append,fairPass,fairPass,List.map_nil,List.append_nil]
    split <;> simp [fairPass]
  | cons y q ih =>
    rw [List.cons_append,fairPass,fairPass]
    split
    · rw [ih]
      split <;> rfl
    · rw [ih]
      simp only [List.map_cons,List.append_assoc,List.singleton_append]
      split <;> rfl

private theorem atLimit_of_skipped {q : PriorityList} {x : JobID × Int}
    (hx : x ∈ (d.fairPass submitted q).2) :
    d.atLimit (submitted ++ (d.fairPass submitted q).1.map Prod.fst) x.1 = true := by
  induction q generalizing submitted with
  | nil => simp [fairPass] at hx
  | cons y q ih =>
    rw [fairPass] at hx ⊢
    split at hx
    · next hy =>
      rw [if_pos hy]
      rcases List.mem_cons.mp hx with rfl | hx
      · exact atLimit_mono _ hy
      · exact ih hx
    · next hy =>
      rw [if_neg hy]
      have hrest := ih hx
      rwa [List.append_assoc,List.singleton_append] at hrest

private theorem fairPass_sublist (submitted : List JobID) (q : PriorityList) :
    (d.fairPass submitted q).1.Sublist q ∧ (d.fairPass submitted q).2.Sublist q := by
  induction q generalizing submitted with
  | nil => exact ⟨List.Sublist.refl _,List.Sublist.refl _⟩
  | cons x q ih =>
    rw [fairPass]
    split
    · exact ⟨(ih submitted).1.cons x,(ih submitted).2.cons_cons x⟩
    · exact ⟨(ih _).1.cons_cons x,(ih _).2.cons x⟩

structure KeepsQueue (n : JobID) (d d' : Dag) : Prop where
  readyQ : d'.readyQ = d.readyQ
  priority : ∀ m, m ≠ n → (d'.jobs m).nodePriority = (d.jobs m).nodePriority

theorem KeepsQueue.refl (n : JobID) (d : Dag) : KeepsQueue n d d := ⟨rfl,fun _ _ => rfl⟩

theorem KeepsQueue.trans {d d' d'' : Dag} (h : KeepsQueue n d d')
    (h' : KeepsQueue n d' d'') : KeepsQueue n d d'' :=
  ⟨h'.readyQ.trans h.readyQ,fun m hm => (h'.priority m hm).trans (h.priority m hm)⟩

theorem KeepsQueue.modify (n : JobID) (d : Dag) (f : Job → Job) :
    KeepsQueue n d (d.modify n f) where
  readyQ := rfl
  priority _ hm := congrArg Job.nodePriority (Function.update_of_ne hm ..)

private theorem KeepsQueue.regenerate (n : JobID) (d : Dag) : KeepsQueue n d
    (d.regenerateSubmitFile n) := by
  have hswap (d : Dag) : KeepsQueue n d (d.swapPriorities n) :=
    ⟨rfl,fun _ hm => congrArg Job.nodePriority (Function.update_of_ne hm ..)⟩
  have hif (P : Prop) [Decidable P] (d : Dag) :
      KeepsQueue n d (if P then d.swapPriorities n else d) := by
    split
    · exact hswap d
    · exact KeepsQueue.refl n d
  rw [regenerateSubmitFile]
  exact (hif _ d).trans (hif _ _)

private theorem keepsQueue_resetCondorID {d' : Dag} (h : d.resetCondorID n = some d') :
    KeepsQueue n d d' := by
  rw [resetCondorID] at h
  split at h
  · obtain rfl := some.inj h
    exact KeepsQueue.refl n d
  · split at h
    · simp at h
    · obtain rfl := some.inj h
      exact ⟨rfl,fun _ hm => congrArg Job.nodePriority (Function.update_of_ne hm ..)⟩

private theorem keepsQueue_monitorLogFile {success : Bool} {d' : Dag}
    (h : monitorLogFile success n d = (true,d')) : KeepsQueue n d d' := by
  rw [monitorLogFile] at h
  split at h
  · obtain rfl := (Prod.mk.inj h).2
    exact KeepsQueue.refl n d
  · split at h
    · obtain rfl := (Prod.mk.inj h).2
      exact KeepsQueue.modify n d _
    · simp at h

private theorem keepsQueue_submitNodeJob {o : Options} {a : Answer} {key : EventKey}
    {moreProcs : Nat} {r : SubmitResult × Dag} (h : d.submitNodeJob o a n = some r)
    (hr : r.1 = .success key moreProcs) : KeepsQueue n d r.2 := by
  unfold submitNodeJob at h
  obtain ⟨d1,hd1,rfl⟩ := Option.map_eq_some_iff.mp h
  have h1 := keepsQueue_resetCondorID hd1
  revert hr
  dsimp only
  generalize ((d1.jobs n).jobType == .condor && !(d1.jobs n).noop &&
    (d1.jobs n).dagFile && o.generateSubdagSubmits) = nested
  generalize hd2 : (if nested = true then d1.regenerateSubmitFile n else d1) = d2
  have h2 : KeepsQueue n d1 d2 := by
    rw [← hd2]
    split
    · exact KeepsQueue.regenerate n d1
    · exact KeepsQueue.refl n d1
  split
  · intro hr
    simp at hr
  · generalize hm : monitorLogFile a.monitored n d2 = m
    obtain ⟨ok,d3⟩ := m
    cases ok with
    | false =>
      intro hr
      simp at hr
    | true =>
      have h3 := keepsQueue_monitorLogFile hm
      dsimp only
      split
      · intro hr
        simp at hr
      · intro _
        have h4 := KeepsQueue.modify n d3 fun j => { j with submitTries := j.submitTries + 1 }
        have hall := ((h1.trans h2).trans h3).trans h4
        split
        · exact hall
        · exact hall

private theorem updateJobCounts_readyQ {change : Int} {d' : Dag}
    (h : d.updateJobCounts n change = some d') : d'.readyQ = d.readyQ := by
  unfold updateJobCounts at h
  dsimp only at h
  split at h
  · simp at h
  · split at h
    · obtain rfl := some.inj h
      rfl
    · split at h
      · simp at h
      · obtain rfl := some.inj h
        rfl

private theorem keepsQueue_processSuccessfulSubmit {key : EventKey} {d' : Dag}
    (h : d.processSuccessfulSubmit n key = some d') : KeepsQueue n d d' := by
  unfold processSuccessfulSubmit at h
  dsimp only at h
  obtain ⟨d1,hd1,h⟩ := Option.bind_eq_some_iff.mp h
  have hjobs := (updateJobCounts_view hd1).2
  have h1 : KeepsQueue n d d1 := by
    refine ⟨(updateJobCounts_readyQ hd1).trans rfl,fun m hm => ?_⟩
    rw [hjobs]
    exact congrArg Job.nodePriority (Function.update_of_ne hm ..)
  split at h
  · obtain rfl := some.inj h
    exact h1.trans ⟨rfl,fun _ hm => congrArg Job.nodePriority (Function.update_of_ne hm ..)⟩
  · simp at h

/-- `SubmitNodeJob` submits the node that the next round hands to it, if there is one. -/
def submissionOK (o : Options) (a : Answer) (count : Nat) (d : Dag) : Bool :=
  match d.nodeToSubmit o count with
  | none => true
  | some n =>
    match ({ d with readyQ := d.readyQ.tail } : Dag).submitNodeJob o a n with
    | some (.success _ _,_) => true
    | _ => false

def submittedView (v : View) (n : JobID) (key : EventKey) : View :=
  (((attempt v n).setNode n { (attempt v n).node n with status := .submitted }).countJob n 1).assign
    n key

private theorem submitRound_fair {o : Options} {a : Answer} {deferred : PriorityList} {count : Nat}
    {r : Dag × List Call × Option (JobID × EventKey × Nat)}
    (h : d.submitRound o a deferred count = some r) (hok : d.submissionOK o a count = true) :
    ((d.readyQ = [] ∨ d.cycleEnds o count = true) ∧ r = (d,[.returnDeferred deferred],none)) ∨
    ∃ x rest, d.readyQ = x :: rest ∧ (d.jobs x.1).status = .ready ∧
      ((d.throttled x.1 = true ∧ r = ({ d with readyQ := rest },
          [.submitLoop (deferred.prepend x.1 (-(d.jobs x.1).nodePriority)) count],none)) ∨
        (d.throttled x.1 = false ∧ ∃ key moreProcs,
          KeepsQueue x.1 { d with readyQ := rest } r.1 ∧
          r.1.view = submittedView d.view x.1 key ∧
          r.2 = ([.submitLoop deferred (count + 1)],some (x.1,key,moreProcs)))) := by
  have hcases := submitRound_cases h
  unfold submitRound at h
  split at h
  · next hq => exact .inl ⟨.inl hq,(some.inj h).symm⟩
  · next n prio rest hq =>
    split at h
    · next hend => exact .inl ⟨.inr hend,(some.inj h).symm⟩
    · next hend =>
      right
      dsimp only at h
      refine ⟨(n,prio),rest,hq,?_⟩
      split at h
      · simp at h
      · next hs =>
        rw [not_not] at hs
        refine ⟨hs,?_⟩
        split at h
        · next ht => exact .inl ⟨ht,(some.inj h).symm⟩
        · next ht =>
          have ht : d.throttled n = false := Bool.eq_false_iff.mpr ht
          have hnode : d.nodeToSubmit o count = some n := by
            simp [nodeToSubmit,hq,hend,hs,ht]
          obtain ⟨⟨res,d1⟩,hr',h⟩ := Option.bind_eq_some_iff.mp h
          rw [submissionOK,hnode] at hok
          dsimp only at hok
          rw [hq,List.tail_cons,hr'] at hok
          cases res with
          | failed | noSubmit => simp at hok
          | success key moreProcs =>
            obtain ⟨d2,hd2,rfl⟩ := Option.map_eq_some_iff.mp h
            refine .inr ⟨ht,key,moreProcs,?_,?_,rfl⟩
            · exact (keepsQueue_submitNodeJob hr' rfl).trans
                (keepsQueue_processSuccessfulSubmit hd2)
            · rcases hcases with ⟨hnone,-⟩ | ⟨m,call,hm,-,-,-,-,-,hsub | ⟨hnone,-⟩ | ⟨hnone,-⟩⟩
              · simp at hnone
              · obtain ⟨key',more',-,hv,-,hout⟩ := hsub
                obtain rfl : m = n := some.inj (hm.symm.trans hnode)
                obtain ⟨-,hkey⟩ := Prod.mk.inj (some.inj hout)
                obtain ⟨rfl,-⟩ := Prod.mk.inj hkey
                exact hv
              · simp at hnone
              · simp at hnone

private theorem throttles_submittedView (v : View) (n : JobID) (key : EventKey) (c : Category) :
    ((submittedView v n key).throttles c).currentJobs =
        (v.throttles c).currentJobs + (if (v.node n).throttle = some c then 1 else 0) ∧
      ((submittedView v n key).throttles c).maxJobs = (v.throttles c).maxJobs := by
  have hthrottles : (attempt v n).throttles = v.throttles := by
    rw [attempt,View.forget]
    split <;> rfl
  have hnode : ((attempt v n).node n).throttle = (v.node n).throttle :=
    View.Touches.attempt.toSameShape.field NodeView.throttle (fun _ => rfl) n
  have hcount := Ledger.countJob_throttles
    ((attempt v n).setNode n { (attempt v n).node n with status := .submitted }).ledger n 1 c
  rw [← View.ledger_countJob] at hcount
  change (_ = ((attempt v n).throttles c).currentJobs + (if (Function.update (attempt v n).node n _
    n).throttle = some c then 1 else 0)) ∧ _ = ((attempt v n).throttles c).maxJobs at hcount
  rw [Function.update_self,hthrottles] at hcount
  rw [← hnode]
  exact hcount

private theorem status_submittedView (v : View) (n : JobID) (key : EventKey) :
    ((submittedView v n key).node n).status = .submitted := by
  simp [submittedView,View.assign,View.countJob]

end Dag

namespace System

/-- The front of the queue has been submitted or skipped as a fair pass does it, and what is skipped
is deferred. -/
structure Pass (d0 : Dag) (nodes : List JobID) (done : PriorityList) (s : System) : Prop where
  queue : d0.readyQ = done ++ s.dag.readyQ
  clusters : s.clusters.map Cluster.node = nodes ++ (d0.fairPass [] done).1.map Prod.fst
  calls : s.calls = [.submitLoop
    ((d0.fairPass [] done).2.foldl (fun q x => Priority.prepend x q) [])
    (d0.fairPass [] done).1.length]
  throttle : ∀ n, (s.dag.jobs n).throttle = (d0.jobs n).throttle
  maxJobs : ∀ c, (s.dag.throttles c).maxJobs = (d0.throttles c).maxJobs
  currentJobs : ∀ c, (s.dag.throttles c).currentJobs = (d0.throttles c).currentJobs +
    ((d0.fairPass [] done).1.map Prod.fst).countP fun n => (d0.jobs n).throttle = some c
  status : ∀ x ∈ (d0.fairPass [] done).1, (s.dag.jobs x.1).status ≠ .ready
  priority : ∀ n, n ∉ (d0.fairPass [] done).1.map Prod.fst →
    (s.dag.jobs n).nodePriority = (d0.jobs n).nodePriority
  apart : ∀ x ∈ (d0.fairPass [] done).2, x.1 ∉ (d0.fairPass [] done).1.map Prod.fst

variable {d0 : Dag} {nodes : List JobID} {done : PriorityList} {s s' : System}

theorem Pass.throttled (h : Pass d0 nodes done s) (n : JobID) :
    s.dag.throttled n = d0.atLimit ((d0.fairPass [] done).1.map Prod.fst) n := by
  rw [Dag.throttled,Dag.atLimit,h.throttle]
  cases (d0.jobs n).throttle with
  | none => rfl
  | some c =>
    have hmax := h.maxJobs c
    have hcurrent := h.currentJobs c
    dsimp only
    cases hm : (d0.throttles c).maxJobs with
    | none => rw [hmax,hm]
    | some m => rw [hmax,hm,hcurrent]

private theorem pass_start (hs : s.calls = [.submitLoop [] 0]) :
    Pass s.dag (s.clusters.map Cluster.node) [] s where
  queue := rfl
  clusters := (List.append_nil _).symm
  calls := hs
  throttle _ := rfl
  maxJobs _ := rfl
  currentJobs _ := (Int.add_zero _).symm
  status _ hx := by simp [Dag.fairPass] at hx
  priority _ _ := rfl
  apart _ hx := by simp [Dag.fairPass] at hx

theorem Pass.skip {x : JobID × Int} {rest : PriorityList} (h : Pass d0 nodes done s)
    (hd : d0.WellKept) (hq : s.dag.readyQ = x :: rest) (hs : (s.dag.jobs x.1).status = .ready)
    (ht : s.dag.throttled x.1 = true)
    (hcalls : s'.calls = [.submitLoop (PriorityList.prepend x.1 (-(s.dag.jobs x.1).nodePriority)
      ((d0.fairPass [] done).2.foldl (fun q x => Priority.prepend x q) []))
      (d0.fairPass [] done).1.length])
    (hdag : s'.dag = { s.dag with readyQ := rest }) (hclusters : s'.clusters = s.clusters) :
    Pass d0 nodes (done ++ [x]) s' := by
  have hlimit : d0.atLimit ([] ++ (d0.fairPass [] done).1.map Prod.fst) x.1 = true := by
    rw [List.nil_append,← h.throttled]
    exact ht
  have hfair : d0.fairPass [] (done ++ [x]) =
      ((d0.fairPass [] done).1,(d0.fairPass [] done).2 ++ [x]) := by
    rw [Dag.fairPass_append,if_pos hlimit]
  have hfree : x.1 ∉ (d0.fairPass [] done).1.map Prod.fst := by
    intro hx
    obtain ⟨y,hy,he⟩ := List.mem_map.mp hx
    exact h.status y hy (he ▸ hs)
  have hx : (x.1,-(s.dag.jobs x.1).nodePriority) = x := by
    have hmem : x ∈ d0.readyQ := by
      rw [h.queue,hq]
      exact List.mem_append_right _ List.mem_cons_self
    rw [h.priority x.1 hfree,← hd.current x hmem]
  have hsorted := Priority.sorted_foldl_prepend (q := []) (d0.fairPass [] done).2 List.Pairwise.nil
  rw [PriorityList.prepend_eq hsorted,hx] at hcalls
  constructor
  case queue =>
    rw [hdag,h.queue,hq,List.append_assoc,List.singleton_append]
  case calls =>
    rw [hcalls,hfair,List.foldl_append]
    rfl
  case clusters =>
    rw [hfair,hclusters]
    exact h.clusters
  case apart =>
    rw [hfair]
    intro y hy
    rcases List.mem_append.mp hy with hy | hy
    · exact h.apart y hy
    · obtain rfl := List.mem_singleton.mp hy
      exact hfree
  all_goals rw [hdag]
  case throttle => exact h.throttle
  case maxJobs => exact h.maxJobs
  all_goals rw [hfair]
  case currentJobs => exact h.currentJobs
  case status => exact h.status
  case priority => exact h.priority

theorem Pass.submit {x : JobID × Int} {rest : PriorityList} {key : EventKey}
    (procs : List ProcState) (h : Pass d0 nodes done s) (hq : s.dag.readyQ = x :: rest)
    (ht : s.dag.throttled x.1 = false) (hcalls : s'.calls = [.submitLoop
      ((d0.fairPass [] done).2.foldl (fun q x => Priority.prepend x q) [])
      ((d0.fairPass [] done).1.length + 1)])
    (hkeep : Dag.KeepsQueue x.1 { s.dag with readyQ := rest } s'.dag)
    (hview : s'.dag.view = Dag.submittedView s.dag.view x.1 key)
    (hclusters : s'.clusters = s.clusters ++ [⟨key,x.1,procs⟩]) :
    Pass d0 nodes (done ++ [x]) s' := by
  have hlimit : d0.atLimit ([] ++ (d0.fairPass [] done).1.map Prod.fst) x.1 = false := by
    rw [List.nil_append,← h.throttled]
    exact ht
  have hfair : d0.fairPass [] (done ++ [x]) =
      ((d0.fairPass [] done).1 ++ [x],(d0.fairPass [] done).2) := by
    rw [Dag.fairPass_append,if_neg (Bool.eq_false_iff.mp hlimit)]
  have htouch : View.Touches s.dag.view x.1 s'.dag.view := by
    rw [hview]
    exact View.Touches.submitted key
  have hthrottles (c : Category) := Dag.throttles_submittedView s.dag.view x.1 key c
  rw [← hview] at hthrottles
  constructor
  case queue =>
    rw [hkeep.readyQ,h.queue,hq,List.append_assoc,List.singleton_append]
  case throttle =>
    intro n
    exact (htouch.toSameShape.field NodeView.throttle (fun _ => rfl) n).trans (h.throttle n)
  case maxJobs =>
    intro c
    exact (hthrottles c).2.trans (h.maxJobs c)
  all_goals rw [hfair]
  case clusters =>
    rw [hclusters,List.map_append,h.clusters,List.map_append,List.append_assoc]
    rfl
  case calls =>
    rw [hcalls,List.length_append]
    rfl
  case currentJobs =>
    intro c
    have hx : (s.dag.view.node x.1).throttle = (d0.jobs x.1).throttle := h.throttle x.1
    have hc : (s'.dag.throttles c).currentJobs = (s.dag.throttles c).currentJobs + _ :=
      (hthrottles c).1
    rw [hc,h.currentJobs,hx,List.map_append,List.countP_append,Int.add_assoc]
    simp only [List.map_cons,List.map_nil,List.countP_cons,List.countP_nil,decide_eq_true_eq]
    split <;> rfl
  case status =>
    intro y hy
    by_cases hyx : y.1 = x.1
    · have hst : (s'.dag.view.node x.1).status = .submitted := by
        rw [hview]
        exact Dag.status_submittedView ..
      have hst : (s'.dag.jobs y.1).status = .submitted := hyx ▸ hst
      simp [hst]
    · rcases List.mem_append.mp hy with hy | hy
      · have hst := congrArg NodeView.status (htouch.other y.1 hyx)
        have hst : (s'.dag.jobs y.1).status = (s.dag.jobs y.1).status := hst
        rw [hst]
        exact h.status y hy
      · exact absurd (congrArg Prod.fst (List.mem_singleton.mp hy)) hyx
  case priority =>
    intro n hn
    rw [List.map_append,List.mem_append,not_or] at hn
    have hnx : n ≠ x.1 := fun he => hn.2 (by simp [he])
    exact (hkeep.priority n hnx).trans (h.priority n hn.1)
  case apart =>
    intro y hy hmem
    rw [List.map_append,List.mem_append] at hmem
    rcases hmem with hmem | hmem
    · exact h.apart y hy hmem
    · -- a skipped node stays at its limit, so it is not the one submitted now
      have hyx : y.1 = x.1 := by simpa using hmem
      have hskipped := Dag.atLimit_of_skipped hy
      rw [hyx,hlimit] at hskipped
      simp at hskipped

/-- Every node that a label hands to `SubmitNodeJob` is submitted. -/
def submitsAll (o : Options) (s : System) : Label → Bool
  | .act _ => true
  | .exec a =>
    match s.calls with
    | .submitLoop _ count :: _ => s.dag.submissionOK o a count
    | _ => true

/-- A call of `SubmitReadyJobs` is a fair pass over the front of the queue, over all of it unless a
limit on the cycle is reached. -/
def PassesFairly (o : Options) (s s' : System) (k : Nat) : Prop :=
  let pass := s.dag.fairPass [] (s.dag.readyQ.take k)
  s'.clusters.map Cluster.node = s.clusters.map Cluster.node ++ pass.1.map Prod.fst ∧
  s'.dag.readyQ = pass.2 ++ s.dag.readyQ.drop k ∧
  (s.dag.readyQ.drop k = [] ∨ s'.dag.cycleEnds o pass.1.length = true) ∧
  ∀ x ∈ pass.2, s'.dag.throttled x.1 = true

private theorem pass_round {o : Options} {a : Answer} (h : Pass d0 nodes done s) (hd : d0.WellKept)
    (hok : s.submitsAll o (.exec a) = true) (hstep : step o s (.exec a) = some s') :
    ((s.dag.readyQ = [] ∨ s.dag.cycleEnds o (d0.fairPass [] done).1.length = true) ∧
      s' = { s with calls := [.returnDeferred
        ((d0.fairPass [] done).2.foldl (fun q x => Priority.prepend x q) [])] }) ∨
    ∃ x, Pass d0 nodes (done ++ [x]) s' := by
  rw [step,h.calls] at hstep
  dsimp only at hstep
  rw [submitsAll,h.calls] at hok
  obtain ⟨r,hr,rfl⟩ := Option.map_eq_some_iff.mp hstep
  rcases Dag.submitRound_fair hr hok with ⟨hend,rfl⟩ | ⟨x,rest,hq,hs,
    ⟨ht,rfl⟩ | ⟨ht,key,more,hkeep,hview,hout⟩⟩
  · exact .inl ⟨hend,rfl⟩
  · exact .inr ⟨x,h.skip hd hq hs ht rfl rfl rfl⟩
  · right
    obtain ⟨d,out⟩ := r
    obtain rfl := hout
    exact ⟨x,h.submit (List.replicate (more + 1) .pending) hq ht rfl hkeep hview rfl⟩

theorem Pass.ends {o : Options} {answers : List Answer} (h : Pass d0 nodes done s)
    (hd : d0.WellKept) (hrun : run (step o) { s with calls := [.returnDeferred
      ((d0.fairPass [] done).2.foldl (fun q x => Priority.prepend x q) [])] }
      (answers.map Label.exec) = some s') (hcalls : s'.calls = []) :
    s'.clusters = s.clusters ∧ s'.dag = { s.dag with
      readyQ := (d0.fairPass [] done).2 ++ s.dag.readyQ } := by
  generalize hdef : (d0.fairPass [] done).2.foldl (fun q x => Priority.prepend x q) [] = deferred
    at hrun
  have hsub : ((d0.fairPass [] done).2 ++ s.dag.readyQ).Sublist d0.readyQ := by
    rw [h.queue]
    exact (Dag.fairPass_sublist [] done).2.append (List.Sublist.refl _)
  have hsorted : Priority.Sorted ((d0.fairPass [] done).2 ++ s.dag.readyQ) := hd.sorted.sublist hsub
  have hcurrent : ∀ x ∈ deferred, x.2 = -(s.dag.jobs x.1).nodePriority := by
    intro x hx
    rw [← hdef,Priority.mem_foldl_prepend] at hx
    rcases hx with hx | hx
    · rw [h.priority x.1 (h.apart x hx)]
      exact hd.current x (hsub.subset (List.mem_append_left _ hx))
    · simp at hx
  have hback : s.dag.returnDeferred deferred =
      { s.dag with readyQ := (d0.fairPass [] done).2 ++ s.dag.readyQ } := by
    have hfold := PriorityList.foldl_prepend_eq (p := fun n => -(s.dag.jobs n).nodePriority)
      (List.pairwise_append.mp hsorted).2.1 hcurrent
    rw [← hdef,Priority.foldl_prepend_eq hsorted,hdef] at hfold
    exact congrArg (fun q => { s.dag with readyQ := q }) hfold
  cases answers with
  | nil =>
    obtain rfl := some.inj hrun
    simp at hcalls
  | cons a answers =>
    obtain ⟨t,ht,hrun⟩ := run_cons_eq_some hrun
    obtain rfl := some.inj ht
    cases answers with
    | nil =>
      obtain rfl := some.inj hrun
      exact ⟨rfl,hback⟩
    | cons b answers =>
      -- no call is left to execute
      obtain ⟨u,hu,-⟩ := run_cons_eq_some hrun
      simp [step,push] at hu

theorem Pass.runs {o : Options} {answers : List Answer} (h : Pass d0 nodes done s)
    (hd : d0.WellKept) (hok : Along (step o) (fun s l => s.submitsAll o l = true) s
      (answers.map Label.exec))
    (hrun : run (step o) s (answers.map Label.exec) = some s') (hcalls : s'.calls = []) :
    ∃ k, s'.clusters.map Cluster.node =
        nodes ++ (d0.fairPass [] (d0.readyQ.take k)).1.map Prod.fst ∧
      s'.dag.readyQ = (d0.fairPass [] (d0.readyQ.take k)).2 ++ d0.readyQ.drop k ∧
      (d0.readyQ.drop k = [] ∨
        s'.dag.cycleEnds o (d0.fairPass [] (d0.readyQ.take k)).1.length = true) ∧
      ∀ x ∈ (d0.fairPass [] (d0.readyQ.take k)).2, s'.dag.throttled x.1 = true := by
  induction answers generalizing s done with
  | nil =>
    obtain rfl := some.inj hrun
    rw [h.calls] at hcalls
    simp at hcalls
  | cons a answers ih =>
    obtain ⟨t,ht,hrun⟩ := run_cons_eq_some hrun
    rcases pass_round h hd hok.1 ht with ⟨hend,rfl⟩ | ⟨x,hx⟩
    · obtain ⟨hclusters,hdag⟩ := h.ends hd hrun hcalls
      have htake : d0.readyQ.take done.length = done := by
        rw [h.queue,List.take_left]
      have hdrop : d0.readyQ.drop done.length = s.dag.readyQ := by
        rw [h.queue,List.drop_left]
      refine ⟨done.length,?_⟩
      rw [htake,hdrop,hclusters,hdag]
      refine ⟨h.clusters,rfl,hend,fun x hx => ?_⟩
      have hlimit := Dag.atLimit_of_skipped hx
      rw [List.nil_append,← h.throttled] at hlimit
      exact hlimit
    · exact ih hx (hok.2 t ht) hrun

end System

/-- A call of `SubmitReadyJobs` in which every submission succeeds is a fair pass over the ready
queue, whose lists do what their calls say and keep their order. -/
theorem submitReadyJobs_fair :
    (∀ (o : Options) (s s' : System) (answers : List Answer), s.dag.WellKept →
      s.calls = [.submitLoop [] 0] →
      Along (System.step o) (fun s l => s.submitsAll o l = true) s (answers.map Label.exec) →
      run (System.step o) s (answers.map Label.exec) = some s' → s'.calls = [] →
      s'.dag.readyQ.Sublist s.dag.readyQ ∧ ∃ k, System.PassesFairly o s s' k) ∧
    ∀ (α : Type) [Inhabited α] [DecidableEq α] (calls : List (PrioritySimpleList.Call α)),
      let l : PrioritySimpleList α := calls.foldl PrioritySimpleList.perform .new
      Priority.Sorted l.entries ∧ ∀ call, (l.perform call).entries = l.effect call := by
  constructor
  · intro o s s' answers hq hloop hok hrun hend
    obtain ⟨k,hclusters,hready,hpass⟩ := (System.pass_start hloop).runs hq hok hrun hend
    refine ⟨?_,k,hclusters,hready,hpass⟩
    rw [hready]
    have hsub := (Dag.fairPass_sublist (d := s.dag) [] (s.dag.readyQ.take k)).2
    have happ := hsub.append (List.Sublist.refl (s.dag.readyQ.drop k))
    rwa [List.take_append_drop] at happ
  · intro α _ _ calls l
    have hsorted := PrioritySimpleList.sorted_run calls
    exact ⟨hsorted,PrioritySimpleList.entries_perform hsorted⟩

/-- Three nodes, two of them in a category that allows one at a time: the second one is skipped. -/
theorem submitReadyJobs_fair_throttled :
    let job : Job := { status := .ready }
    let dag : Dag := {
      numNodes := 3
      jobs := fun n => if n = 2 then job else { job with throttle := some "io" }
      throttles := fun _ => { maxJobs := some 1 }
      readyQ := [(0,0),(1,0),(2,0)] }
    let s : System := { dag := dag, calls := [.submitLoop [] 0] }
    let answers : List Answer :=
      [{ submitted := some (.condor 1,0) },{},{ submitted := some (.condor 2,0) },{},{}]
    ∃ s', run (System.step {}) s (answers.map Label.exec) = some s' ∧
      s'.clusters.map Cluster.node = [0,2] ∧ s'.dag.readyQ = [(1,0)] ∧
      s'.dag.readyQ.Sublist s.dag.readyQ ∧ ∃ k, System.PassesFairly {} s s' k := by
  intro job dag s answers
  have hkept : s.dag.WellKept := by
    refine ⟨by simp [Priority.Sorted,s,dag],fun x hx => ?_⟩
    have hprio : (dag.jobs x.1).nodePriority = 0 := by
      change (if x.1 = 2 then job else { job with throttle := some "io" }).nodePriority = 0
      split <;> rfl
    have hx : x = (0,0) ∨ x = (1,0) ∨ x = (2,0) := by simpa [s,dag] using hx
    rw [hprio]
    rcases hx with rfl | rfl | rfl <;> rfl
  obtain ⟨s',hrun,hs'⟩ := run_exists (System.step {}) s (answers.map Label.exec)
    (fun s' => decide (s'.calls = [] ∧ s'.clusters.map Cluster.node = [0,2] ∧
      s'.dag.readyQ = [(1,0)])) (by decide)
  obtain ⟨hend,hclusters,hready⟩ := of_decide_eq_true hs'
  have hfair := submitReadyJobs_fair.1 {} s s' answers hkept rfl (by decide) hrun hend
  exact ⟨s',hrun,hclusters,hready,hfair⟩

/-- A node that `Bootstrap` starts twice is in the queue twice. Its first submission changes its
priority, so the entry left behind is deferred to another place. -/
theorem submitReadyJobs_reorders :
    let o : Options := { maxSubmitsPerInterval := 1 }
    let execs (n : Nat) : List Label := List.replicate n (.exec {})
    let labels : List Label := [.act (.addNode { scriptPre := true, preSkip := some 1 }),
      .act (.addNode { dagFile := true, priority := some (-3), retryMax := 1,
                       throttle := some "io" }),
      .act (.addNode { scriptPre := true, priority := some 5, throttle := some "io" }),
      .act (.addNode { scriptPre := true, priority := some (-2), throttle := some "io" }),
      .act (.addDependency 0 1),.act (.setThrottle "io" 1),.act .bootstrap] ++ execs 5 ++
      .exec { spawned := false } :: execs 10 ++ [.act (.submitReadyJobs 0 false),
      .exec { submitted := some (.condor 1,0) }] ++ execs 2 ++ [.act (.submitEvent 0 0),
      .act (.endEvent 0 0 (.terminated (.exited 1)) {})] ++ execs 2 ++
      .act (.scriptReaper false 2 (.exited 0)) :: execs 3 ++ [.act (.submitReadyJobs 0 false),
      .exec { submitted := some (.condor 2,0) }] ++ execs 2 ++
      .act (.scriptReaper false 3 (.exited 0)) :: execs 3 ++ [.act (.submitReadyJobs 0 false)]
    ∃ s s', run (System.step o) {} labels = some s ∧ s.calls = [.submitLoop [] 0] ∧
      Along (System.step o) (fun s l => s.submitsAll o l = true) s (execs 5) ∧
      run (System.step o) s (execs 5) = some s' ∧ s'.calls = [] ∧ s'.clusters = s.clusters ∧
      s.dag.readyQ.map Prod.fst = [1,3,1] ∧ s'.dag.readyQ.map Prod.fst = [1,1,3] := by
  intro o execs labels
  obtain ⟨s,hs,hcall⟩ := run_exists (System.step o) {} labels
    (fun s => decide (s.calls = [.submitLoop [] 0] ∧ s.dag.readyQ.map Prod.fst = [1,3,1] ∧
      Along (System.step o) (fun s l => s.submitsAll o l = true) s (execs 5) ∧
      (run (System.step o) s (execs 5)).map (fun s' => decide (s'.calls = [] ∧
        s'.clusters = s.clusters ∧ s'.dag.readyQ.map Prod.fst = [1,1,3])) = some true))
    (by decide)
  obtain ⟨hloop,hready,hok,hrun⟩ := of_decide_eq_true hcall
  obtain ⟨s',hs',hend⟩ := Option.map_eq_some_iff.mp hrun
  obtain ⟨hcalls,hclusters,hready'⟩ := of_decide_eq_true hend
  exact ⟨s,s',hs,hloop,hok,hs',hcalls,hclusters,hready,hready'⟩

end Condor.Dagman
