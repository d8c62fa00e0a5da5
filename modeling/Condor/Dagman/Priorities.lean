import Condor.Dagman.Handlers

/-!
# Priorities around a submission

`SubmitNodeJob` swaps the priority of a nested DAG's node with that of the options for
`condor_submit_dag`, and swaps them back if the node's is the smaller one then.
-/

namespace Condor.Dagman

structure Priorities where
  node : JobID → Int
  deep : Int

namespace Dag

def priorities (d : Dag) : Priorities := ⟨fun n => (d.jobs n).nodePriority,d.deepPriority⟩

def regenerates (o : Options) (n : JobID) (d : Dag) : Prop :=
  (d.jobs n).jobType = .condor ∧ (d.jobs n).noop = false ∧ (d.jobs n).dagFile = true ∧
    o.generateSubdagSubmits = true

def belowDeep (n : JobID) (d : Dag) : Prop :=
  (d.jobs n).hasNodePriority = true ∧ (d.jobs n).nodePriority < d.deepPriority

private theorem priorities_modify (d : Dag) (n : JobID) {f : Job → Job}
    (hf : (f (d.jobs n)).nodePriority = (d.jobs n).nodePriority) :
    (d.modify n f).priorities = d.priorities := by
  rw [priorities,priorities,Priorities.mk.injEq]
  refine ⟨?_,rfl⟩
  funext m
  by_cases hm : m = n
  · rw [hm,modify_jobs_self,hf]
  · exact congrArg Job.nodePriority (Function.update_of_ne hm _ _)

private theorem priorities_monitorLogFile (success : Bool) (n : JobID) (d : Dag) :
    (monitorLogFile success n d).2.priorities = d.priorities := by
  unfold monitorLogFile
  split
  · rfl
  · split
    · exact priorities_modify d n (f := fun j => { j with logIsMonitored := true }) rfl
    · unfold logMonitorFailed
      split
      · rfl
      · exact priorities_modify d n
          (f := fun j => { j with status := .error, retval := dagErrorLogMonitorError }) rfl

private theorem resetCondorID_priorities {n : JobID} {d d' : Dag}
    (h : d.resetCondorID n = some d') :
    d'.priorities = d.priorities := by
  unfold resetCondorID at h
  split at h
  · rw [Option.some.inj h]
  · split at h
    · simp at h
    · rw [← Option.some.inj h]
      exact priorities_modify _ n rfl

private theorem swapPriorities_node (n : JobID) (d : Dag) :
    ((d.swapPriorities n).jobs n).nodePriority = d.deepPriority := by
  rw [swapPriorities,modify_jobs_self]

private theorem swapPriorities_hasNodePriority (n : JobID) (d : Dag) :
    ((d.swapPriorities n).jobs n).hasNodePriority = (d.jobs n).hasNodePriority := by
  rw [swapPriorities,modify_jobs_self]

private theorem priorities_swap_swap (n : JobID) (d : Dag) :
    ((d.swapPriorities n).swapPriorities n).priorities = d.priorities := by
  rw [priorities,priorities,Priorities.mk.injEq]
  constructor
  · funext m
    by_cases hm : m = n
    · rw [hm,swapPriorities_node]
      rfl
    · simp [swapPriorities,modify,setJob]
  · exact swapPriorities_node n d

/-- The priorities are swapped once if the node's is below that of the options, else twice or not
at all. -/
theorem priorities_regenerateSubmitFile_iff (n : JobID) (d : Dag) :
    (d.regenerateSubmitFile n).priorities = d.priorities ↔ ¬ d.belowDeep n := by
  unfold regenerateSubmitFile belowDeep
  dsimp only
  by_cases hhas : (d.jobs n).hasNodePriority = true
  · rcases lt_trichotomy (d.jobs n).nodePriority d.deepPriority with hlt | heq | hgt
    · have hfirst : ¬ d.deepPriority < (d.jobs n).nodePriority := by omega
      simp only [hhas,hfirst,hlt,decide_true,decide_false,Bool.and_self,Bool.and_false,if_true,
        Bool.false_eq_true,if_false,and_self,not_true_eq_false,iff_false]
      intro h
      have hnode := congrFun (congrArg Priorities.node h) n
      have hswap := swapPriorities_node n d
      simp only [priorities] at hnode
      omega
    · simp [hhas,heq]
    · have hback : ((d.swapPriorities n).jobs n).nodePriority <
          (d.swapPriorities n).deepPriority := by
        rw [swapPriorities_node]
        exact hgt
      have hnot : ¬ (d.jobs n).nodePriority < d.deepPriority := by omega
      simp only [hhas,hgt,hnot,decide_true,Bool.and_self,if_true,swapPriorities_hasNodePriority,
        hback,priorities_swap_swap,and_false,not_false_eq_true]
  · simp [hhas]

/-- `SubmitNodeJob` leaves all priorities as they were, unless it makes the submit file again for a
node whose own priority is below that of the options. -/
theorem submitNodeJob_priorities_iff {o : Options} {a : Answer} {n : JobID} {d d' : Dag}
    {r : SubmitResult} (h : d.submitNodeJob o a n = some (r,d')) :
    d'.priorities = d.priorities ↔ ¬ (d.regenerates o n ∧ d.belowDeep n) := by
  obtain ⟨d1,hd1,heq⟩ := Option.map_eq_some_iff.mp h
  have hreset := resetCondorID_priorities hd1
  have hjob : d1.jobs n = { d.jobs n with condorID := none } := (resetCondorID_view hd1).2
  have hdeep : d1.deepPriority = d.deepPriority := congrArg Priorities.deep hreset
  have hbelow : d1.belowDeep n ↔ d.belowDeep n := by
    rw [belowDeep,belowDeep,hjob,hdeep]
  have hnested : ((d1.jobs n).jobType == .condor && !(d1.jobs n).noop && (d1.jobs n).dagFile &&
      o.generateSubdagSubmits) = true ↔ d.regenerates o n := by
    simp [regenerates,hjob,and_assoc]
  dsimp only at heq
  generalize ((d1.jobs n).jobType == .condor && !(d1.jobs n).noop && (d1.jobs n).dagFile &&
    o.generateSubdagSubmits) = nested at heq hnested
  generalize hd2 : (if nested = true then d1.regenerateSubmitFile n else d1) = d2 at heq
  have hiff : d2.priorities = d.priorities ↔ ¬ (d.regenerates o n ∧ d.belowDeep n) := by
    rw [← hd2,← hnested,← hbelow]
    by_cases hn : nested = true
    · rw [if_pos hn,← hreset,priorities_regenerateSubmitFile_iff]
      simp [hn]
    · rw [if_neg hn]
      simp [hn,hreset]
  suffices hrest : d'.priorities = d2.priorities by rw [hrest,hiff]
  -- nothing behind the submit file touches the priorities
  split at heq
  · obtain rfl := (Prod.mk.inj heq).2
    rfl
  · have hmon := priorities_monitorLogFile a.monitored n d2
    generalize monitorLogFile a.monitored n d2 = m at heq hmon
    obtain ⟨ok,d3⟩ := m
    cases ok with
    | false =>
      obtain rfl := (Prod.mk.inj heq).2
      exact hmon
    | true =>
      dsimp only at heq
      split at heq
      · obtain rfl := (Prod.mk.inj heq).2
        exact (priorities_modify d3 n (f := fun j => { j with status := .error }) rfl).trans hmon
      · have htries := (priorities_modify d3 n
          (f := fun j => { j with submitTries := j.submitTries + 1 }) rfl).trans hmon
        split at heq
        · obtain rfl := (Prod.mk.inj heq).2
          exact htries
        · obtain rfl := (Prod.mk.inj heq).2
          exact htries

def nestedNode (priority : Int) : Dag :=
  Dag.setJob { numNodes := 1, deepPriority := 5 } 0
    { dagFile := true, hasNodePriority := true, nodePriority := priority }

def nestedSubmitted (priority : Int) : Dag :=
  (((nestedNode priority).submitNodeJob {} {} 0).map Prod.snd).getD {}

theorem submitNodeJob_priorities_iff_higher :
    (nestedSubmitted 7).priorities = (nestedNode 7).priorities := by
  have hsubmit : (nestedNode 7).submitNodeJob {} {} 0 = some (.failed,nestedSubmitted 7) := rfl
  apply (submitNodeJob_priorities_iff hsubmit).mpr
  rintro ⟨-,-,hbelow⟩
  exact absurd hbelow (by decide)

/-- A priority below that of the options is exchanged with it. -/
theorem lower_priority_leaks :
    ¬ ∀ (o : Options) (a : Answer) (n : JobID) (d d' : Dag) (r : SubmitResult),
      d.submitNodeJob o a n = some (r,d') →
      (d'.jobs n).nodePriority = (d.jobs n).nodePriority ∧ d'.deepPriority = d.deepPriority := by
  intro hall
  have h := (hall {} {} 0 (nestedNode 3) (nestedSubmitted 3) .failed rfl).2
  exact absurd h (by decide)

end Dag

end Condor.Dagman
