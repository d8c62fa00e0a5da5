import Condor.Dagman.Build
import Condor.Dagman.Clusters

/-!
# The throttles

The counts of submitted jobs are the numbers of nodes with an outstanding cluster, as long as no
node drops to zero queued procs while a submit event is unread, or is submitted again while procs of
its last cluster are queued.
-/

namespace Condor.Dagman

open Lib List Function

namespace System

/-- The counts are exact, a node whose procs are all still unread is submitted, and no submit
event is held back. -/
structure Counted (o : Options) (s : System) : Prop where
  balanced : Balanced o s.dag.view.ledger s.clusters
  listed : ∀ n, holds s.clusters n = true → (s.dag.view.node n).queued = 0 →
    (s.dag.view.node n).status = .submitted
  unrecorded : ∀ i p, .recordSubmit i p ∉ s.owed

variable {o : Options} {s s' : System} {l : Label}

/-- The last queued proc of a node ends only after all submit events of its cluster. -/
def EndsComplete (s : System) (l : Label) : Prop :=
  s.EndMeets (fun c j _ _ => j.queuedNodeJobProcs = 1 → ProcState.pending ∉ c.procs) l
deriving Decidable

def SubmitsIdle (o : Options) (s : System) : Prop :=
  ∀ n ∈ s.submits o, (s.dag.jobs n).queuedNodeJobProcs = 0
deriving Decidable

private theorem Counted.of_ledger (h : Counted o s) (hv : s'.dag.view.ledger = s.dag.view.ledger)
    (hc : s'.clusters = s.clusters) (hst : ∀ m, (s.dag.view.node m).status = .submitted →
      (s'.dag.view.node m).status = .submitted)
    (ho : ∀ i p, .recordSubmit i p ∈ s'.owed → .recordSubmit i p ∈ s.owed) : Counted o s' := by
  refine ⟨by rw [hv,hc]; exact h.balanced,fun n hn hq => ?_,
    fun i p hmem => h.unrecorded i p (ho i p hmem)⟩
  rw [hc] at hn
  have hq' : (s'.dag.view.node n).queued = (s.dag.view.node n).queued :=
    congrFun (congrArg Ledger.queued hv) n
  rw [hq'] at hq
  exact hst n (h.listed n hn hq)

private theorem status_of_touches {n : JobID} (hv : View.Touches s.dag.view n s'.dag.view)
    (hn : (s.dag.view.node n).status ≠ .submitted) (m : JobID)
    (hm : (s.dag.view.node m).status = .submitted) :
    (s'.dag.view.node m).status = .submitted := by
  have hmn : m ≠ n := by
    rintro rfl
    exact hn hm
  rw [hv.other m hmn]
  exact hm

private theorem Counted.not_holds (h : Counted o s) {n : JobID}
    (hs : (s.dag.jobs n).status = .ready)
    (hq : (s.dag.jobs n).queuedNodeJobProcs = 0) : holds s.clusters n = false := by
  cases hh : holds s.clusters n with
  | false => rfl
  | true =>
    have hsub : (s.dag.jobs n).status = .submitted := h.listed n hh hq
    rw [hs] at hsub
    simp at hsub

private theorem counted_ended {i p : Nat} {c : Cluster} (hord : Orderly s) (h : Counted o s)
    (hi : s.clusters[i]? = some c) (hpr : c.procs[p]? = some .queued)
    (hlast : (s.dag.jobs c.node).queuedNodeJobProcs = 1 → ProcState.pending ∉ c.procs)
    (hv : s'.dag.view.ledger = (s.dag.view.endProc c.node).ledger)
    (hc : s'.clusters = s.clusters.set i { c with procs := c.procs.set p .ended })
    (hst : ∀ m, m ≠ c.node → (s.dag.view.node m).status = .submitted →
      (s'.dag.view.node m).status = .submitted)
    (ho : ∀ i p, .recordSubmit i p ∈ s'.owed → .recordSubmit i p ∈ s.owed) : Counted o s' := by
  have hN : c.node < s.dag.view.numNodes :=
    (hord.begun c.node (.inr (.inr (.inl ⟨c,mem_of_getElem? hi,rfl⟩)))).1
  have hbal := h.balanced.endProc hi hpr hN hlast
  rw [← hv,← hc] at hbal
  have hout : c.outstanding = true := Cluster.outstanding_of_getElem hpr (by simp)
  refine ⟨hbal,fun n hn hq => ?_,fun i p hmem => ?_⟩
  · by_cases hnc : n = c.node
    · -- an outstanding cluster after the end of a queued proc has a queued proc left
      subst hnc
      have hlt : i < s.clusters.length := (List.getElem?_eq_some_iff.mp hi).1
      have hcount := Cluster.queuedProcs_set (y := .ended) hpr
      simp only [if_true,reduceCtorEq,if_false,Nat.add_zero] at hcount
      have hq0 : (s.dag.view.node c.node).queued = (c.procs.count .queued : Nat) :=
        (h.balanced.owner i c hi hout).2
      by_cases hone : c.procs.count .queued = 1
      · have hfalse := Cluster.not_outstanding_set hpr hone (hlast (by
          change (s.dag.view.node c.node).queued = 1
          omega))
        rw [hc,holds_set_false h.balanced.single hi hout hfalse] at hn
        simp at hn
      · have hpos : 0 < c.procs.count .queued :=
          List.count_pos_iff.mpr (mem_of_getElem? hpr)
        have hq' : (s'.dag.view.node c.node).queued =
            ((s.dag.view.endProc c.node).node c.node).queued :=
          congrFun (congrArg Ledger.queued hv) c.node
        have hend : ((s.dag.view.endProc c.node).node c.node).queued =
            (s.dag.view.node c.node).queued - 1 := by
          unfold View.endProc
          dsimp only
          split <;> simp [View.countJob]
        omega
    · have hn' : holds s.clusters n = true := by
        rw [hc,holds_iff] at hn
        obtain ⟨j,d,hj,hd,hdn⟩ := hn
        rcases getElem?_set_cases hi hj with ⟨rfl,rfl⟩ | ⟨-,hj⟩
        · exact absurd hdn.symm hnc
        · exact holds_iff.mpr ⟨j,d,hj,hd,hdn⟩
      have hq' : (s'.dag.view.node n).queued = (s.dag.view.node n).queued := by
        have h1 : (s'.dag.view.node n).queued = ((s.dag.view.endProc c.node).node n).queued :=
          congrFun (congrArg Ledger.queued hv) n
        rw [h1,(View.Touches.endProc (v := s.dag.view) (n := c.node)).other n hnc]
      rw [hq'] at hq
      exact hst n hnc (h.listed n hn' hq)
  · exact h.unrecorded i p (ho i p hmem)

private theorem counted_moves (hord : Orderly s) (h : Counted o s) (hm : Moves o s l s')
    (hend : EndsComplete s l) (hidle : SubmitsIdle o s) : Counted o s' := by
  have hmatch {i p : Nat} {c : Cluster} (hi : s.clusters[i]? = some c)
      (hpr : c.procs[p]? = some .pending) : s.dag.clusterMatches c.node c.key = true := by
    have hid : (s.dag.jobs c.node).condorID = some c.key :=
      (h.balanced.owner i c hi (Cluster.outstanding_of_getElem hpr (by simp))).1
    simp [Dag.clusterMatches,hid]
  cases hm with
  | quiet hv hc hp ho =>
    have hnode : s'.dag.view.node = s.dag.view.node := by rw [hv]
    exact h.of_ledger (by rw [hv]; rfl) hc (fun m hm => by rw [hnode]; exact hm)
      (fun i p hmem => ho ▸ hmem)
  | skipped n hs hv hc hp ho | looked n hn hv hc hp ho =>
    refine h.of_ledger (by rw [hv]) hc (fun m hm => by rw [hv]; exact hm) (fun i p hmem => ?_)
    rw [ho]
    exact mem_cons_of_mem _ hmem
  | preDone n rest hs hv hc hp ho ho' =>
    refine h.of_ledger (by rw [hv,View.ledger_settle]) hc ?_ (fun i p hmem => ?_)
    · refine status_of_touches (hv ▸ .settle _ _ : View.Touches s.dag.view n s'.dag.view) ?_
      change (s.dag.jobs n).status ≠ .submitted
      rw [hs]
      simp
    · rw [ho'] at hmem
      rw [ho]
      rcases List.mem_append.mp hmem with hmem | hmem
      · obtain ⟨c,-,hc⟩ := List.mem_map.mp hmem
        simp at hc
      · exact mem_cons_of_mem _ hmem
  | preStarted n hs hv hc hp ho =>
    refine h.of_ledger (by rw [hv,View.ledger_settle]) hc ?_ (fun i p hmem => ho ▸ hmem)
    refine status_of_touches (hv ▸ .settle _ _ : View.Touches s.dag.view n s'.dag.view) ?_
    change (s.dag.jobs n).status ≠ .submitted
    rw [(Job.canSubmit_iff.mp hs).2]
    simp
  | released b p c hn hv hc hp ho =>
    refine h.of_ledger (by rw [hv,View.ledger_release]) hc (fun m hm => ?_)
      (fun i p hmem => by rw [ho]; exact mem_cons_of_mem _ hmem)
    rw [hv,View.node_release NodeView.status fun _ _ => rfl]
    exact hm
  | scriptEnded post n fate k hs hfate hlost hv hc hp ho =>
    refine h.of_ledger (by rw [hv,View.ledger_settle,View.ledger_leave]) hc ?_
      (fun i p hmem => ?_)
    · refine status_of_touches (hv ▸ (View.Touches.leave post).trans (.settle _ _) :
        View.Touches s.dag.view n s'.dag.view) ?_
      change (s.dag.jobs n).status ≠ .submitted
      rw [hs]
      cases post <;> simp
    · rw [ho] at hmem
      rcases List.mem_append.mp hmem with hmem | hmem
      · obtain ⟨c,-,hc⟩ := release_of_mem_owed hmem
        simp at hc
      · exact hmem
  | finalStarted f extra hf hs hv hc hp ho hextra =>
    refine h.of_ledger (by rw [hv,View.ledger_startFinal]) hc ?_ (fun i p hmem => ?_)
    · refine status_of_touches (hv ▸ .startFinal : View.Touches s.dag.view f s'.dag.view) ?_
      change (s.dag.jobs f).status ≠ .submitted
      rw [hs]
      simp
    · rw [ho] at hmem
      rcases hextra with rfl | ⟨j,q,c,rfl,hj,hpr,hno⟩
      · exact hmem
      · -- the node of an outstanding cluster has its ID
        rw [hmatch hj hpr] at hno
        simp at hno
  | submitSeen i p c count extra hi hpr hw hh hcount hv hc hp ho hextra =>
    obtain rfl : count = true := hcount (hmatch hi hpr)
    have hbal := h.balanced.seeSubmit hi hpr
    rw [← hv,← hc] at hbal
    have hout : c.outstanding = true := Cluster.outstanding_of_getElem hpr (by simp)
    refine ⟨hbal,fun n hn hq => ?_,fun j q hmem => ?_⟩
    · have hst : (s'.dag.view.node n).status = (s.dag.view.node n).status := by
        rw [hv]
        by_cases hnc : n = c.node
        · subst hnc
          simp [View.seeSubmit,View.assign]
        · simp [View.seeSubmit,View.assign,View.setNode,hnc]
      have hnc : n ≠ c.node := by
        rintro rfl
        have hq0 : (s.dag.view.node c.node).queued = (c.procs.count .queued : Nat) :=
          (h.balanced.owner i c hi hout).2
        rw [hv] at hq
        simp [View.seeSubmit,View.assign] at hq
        omega
      have hq' : (s'.dag.view.node n).queued = (s.dag.view.node n).queued := by
        rw [hv]
        simp [View.seeSubmit,View.assign,View.setNode,hnc]
      rw [hst]
      rw [hq'] at hq
      refine h.listed n ?_ hq
      rw [hc,holds_iff] at hn
      obtain ⟨j,d,hj,hd,hdn⟩ := hn
      rcases getElem?_set_cases hi hj with ⟨rfl,rfl⟩ | ⟨-,hj⟩
      · exact absurd hdn.symm hnc
      · exact holds_iff.mpr ⟨j,d,hj,hd,hdn⟩
    · apply h.unrecorded j q
      rw [ho]
      exact mem_append_right _ hmem
  | orphaned i p c hi hpr hh hv hc hp ho =>
    have hhash := h.balanced.hash_owner hi (Cluster.outstanding_of_getElem hpr (by simp))
    rw [hh] at hhash
    simp at hhash
  | ended i p c n result a monitored hl hi hpr hh hmon hv hc hp ho =>
    subst hl
    have hhash := h.balanced.hash_owner hi (Cluster.outstanding_of_getElem hpr (by simp))
    obtain rfl : n = c.node := Option.some.inj (hh.symm.trans hhash)
    refine counted_ended hord h hi hpr (hend.apply hi hh) (by rw [hv,View.ledger_handle]) hc
      (fun m hm hs => ?_) (fun j q hmem => ?_)
    · have htouch : View.Touches s.dag.view c.node s'.dag.view :=
        hv ▸ View.Touches.endProc.trans (.handle _ _)
      rw [htouch.other m hm]
      exact hs
    · rw [ho] at hmem
      rcases List.mem_append.mp hmem with hmem | hmem
      · obtain ⟨x,-,hx⟩ := release_of_mem_fateOwed hmem
        simp at hx
      · exact hmem
  | endedFinal i p c n f result a v hl ht hi hpr hh hpost hab hf hs hv hv' hc hp ho =>
    subst hl
    have hhash := h.balanced.hash_owner hi (Cluster.outstanding_of_getElem hpr (by simp))
    obtain rfl : n = c.node := Option.some.inj (hh.symm.trans hhash)
    refine counted_ended hord h hi hpr (hend.apply hi hh)
      (by rw [hv',View.ledger_startFinal,hv,View.ledger_handle]) hc (fun m hm hst => ?_)
      (fun j q hmem => ho ▸ hmem)
    have hmid : View.Touches s.dag.view c.node v := hv ▸ View.Touches.endProc.trans (.handle _ _)
    have hlast : View.Touches v f s'.dag.view := hv' ▸ .startFinal
    have hvm : (v.node m).status = .submitted := by
      rw [hmid.other m hm]
      exact hst
    have hmf : m ≠ f := by
      rintro rfl
      rw [hs] at hvm
      simp at hvm
    rw [hlast.other m hmf]
    exact hvm
  | submitted n key moreProcs hn hs hr hend hthr hh hv hc hp ho =>
    have hfree := hord.begun n (.inl hr)
    have hnot := h.not_holds hs (hidle n hn)
    have hshape := View.Touches.attempt (v := s.dag.view) (n := n)
    have hledger := h.balanced.attempt hnot
    have hkept : (Dag.attempt s.dag.view n).jobsSubmitted = s.dag.view.jobsSubmitted ∧
        (Dag.attempt s.dag.view n).throttles = s.dag.view.throttles := by
      unfold Dag.attempt View.forget
      split
      · exact ⟨rfl,rfl⟩
      · exact ⟨rfl,rfl⟩
    have hbal := hledger.submitted key moreProcs
      (by rw [hshape.numNodes]; exact hfree.1) hnot hh (fun hz => ?_) (fun cat max ht hz => ?_)
    · rw [← hv,← hc] at hbal
      refine ⟨hbal,fun m hm hq => ?_,fun i p hmem => h.unrecorded i p (ho ▸ hmem)⟩
      by_cases hmn : m = n
      · subst hmn
        rw [hv]
        simp [View.assign,View.countJob,View.setNode]
      · have htouch : View.Touches s.dag.view n s'.dag.view := hv ▸ .submitted key
        rw [htouch.other m hmn] at hq ⊢
        refine h.listed m ?_ hq
        rw [hc,holds_append] at hm
        simpa [Ne.symm hmn] using hm
    · obtain ⟨count,hcycle⟩ := hend
      rw [hkept.1]
      simp only [Dag.cycleEnds,Bool.or_eq_false_iff,Bool.and_eq_false_iff,decide_eq_false_iff_not,
        Int.not_le] at hcycle
      rcases hcycle.1.2 with hzero | hlt
      · simp at hzero
        exact absurd hzero hz
      · exact hlt
    · rw [hkept.2] at hz ⊢
      have ht' : (s.dag.jobs n).throttle = some cat :=
        (hshape.field NodeView.throttle (fun _ => rfl) n).symm.trans ht
      have hz' : (s.dag.throttles cat).maxJobs = some max := hz
      simp only [Dag.throttled,ht',hz',decide_eq_false_iff_not,Int.not_le] at hthr
      exact hthr
  | attempted n fate k hn hs hr hfate hlost hv hc hp ho =>
    have hnot := h.not_holds hs (hidle n hn)
    have hbal := h.balanced.attempt hnot
    have htouch : View.Touches s.dag.view n s'.dag.view :=
      hv ▸ View.Touches.attempt.trans (.settle _ _)
    refine ⟨by rw [hv,View.ledger_settle,hc]; exact hbal,fun m hm hq => ?_,
      fun i p hmem => h.unrecorded i p (ho ▸ hmem)⟩
    rw [hc] at hm
    have hmn : m ≠ n := by
      rintro rfl
      rw [hnot] at hm
      simp at hm
    rw [htouch.other m hmn] at hq ⊢
    exact h.listed m hm hq
  | dropped n hn hs hr hd hv hc hp ho =>
    have hnot := h.not_holds hs (hidle n hn)
    have hbal := h.balanced.attempt hnot
    have htouch : View.Touches s.dag.view n s'.dag.view := hv ▸ .attempt
    refine ⟨by rw [hv,hc]; exact hbal,fun m hm hq => ?_,
      fun i p hmem => h.unrecorded i p (ho ▸ hmem)⟩
    rw [hc] at hm
    have hmn : m ≠ n := by
      rintro rfl
      rw [hnot] at hm
      simp at hm
    rw [htouch.other m hmn] at hq ⊢
    exact h.listed m hm hq

private theorem count_holds_nil (bound : Nat) (test : JobID → Bool) :
    count bound (fun m => holds [] m && test m) = 0 := count_eq_zero fun _ _ => rfl

private theorem counted_builds {action : Action} (hord : Orderly s) (h : Counted o s)
    (hb : s.bootstrapped = false) (hm : Builds s action s') : Counted o s' := by
  obtain ⟨hk0,hnone⟩ := hord.building hb
  have hempty : s.clusters = [] := by
    rw [eq_nil_iff_forall_not_mem]
    intro c hc
    exact hnone c.node (.inr (.inr (.inl ⟨c,hc,rfl⟩)))
  have howed (hk : s'.calls = s.calls) (i p : Nat) : .recordSubmit i p ∉ s'.owed := by
    simp [owed,hk,hk0]
  have hlisted (hc : s'.clusters = s.clusters) (n : JobID) (hn : holds s'.clusters n = true) :
      (s'.dag.view.node n).queued = 0 → (s'.dag.view.node n).status = .submitted := by
    rw [hc,hempty] at hn
    simp [holds] at hn
  have hsame (hv : s'.dag.view.ledger = s.dag.view.ledger) (hc : s'.clusters = s.clusters)
      (ho : ∀ i p, .recordSubmit i p ∉ s'.owed) : Counted o s' :=
    ⟨by rw [hv,hc]; exact h.balanced,hlisted hc,ho⟩
  cases hm with
  | same hv hc hk hb' => exact hsame (by rw [hv]) hc (howed hk)
  | @addNode spec _ hf hv hc hk hb' =>
    refine ⟨?_,hlisted hc,howed hk⟩
    have hledger : s'.dag.view.ledger = { s.dag.view.ledger with
        numNodes := s.dag.view.numNodes + 1
        queued := update s.dag.view.ledger.queued s.dag.numNodes 0
        condorID := update s.dag.view.ledger.condorID s.dag.numNodes none
        throttle := update s.dag.view.ledger.throttle s.dag.numNodes spec.throttle } := by
      rw [hv]
      exact congrArg (fun w : Ledger => { w with numNodes := s.dag.view.numNodes + 1 })
        (View.ledger_setNode s.dag.view s.dag.numNodes spec.toJob.view)
    rw [hledger,hc,hempty]
    have hbal := h.balanced
    rw [hempty] at hbal
    have hfalse (m : JobID) : holds [] m = false := rfl
    refine ⟨fun n k hn => ?_,fun i c hi => by simp at hi,fun i j c d hi => by simp at hi,
      fun n _ => ?_,?_,fun cat => ?_,hbal.limit,hbal.limits⟩
    · dsimp only at hn ⊢
      by_cases hnn : n = s.dag.numNodes
      · subst hnn
        rw [update_self] at hn
        simp at hn
      · rw [update_of_ne hnn] at hn
        exact hbal.hashed n k hn
    · dsimp only
      by_cases hnn : n = s.dag.numNodes
      · subst hnn
        exact update_self ..
      · rw [update_of_ne hnn]
        exact hbal.rest n rfl
    · have hold := hbal.total
      rw [count_eq_zero fun i _ => hfalse i] at hold
      rw [count_eq_zero fun i _ => hfalse i]
      exact hold
    · have hold := hbal.category cat
      rw [count_holds_nil] at hold
      rw [count_holds_nil]
      exact hold
  | refused hp hn hcan hv hC hc hk hb' | linked hp hn hfin hv hP hC hW hc hk hb'
  | removed hv hP hC hc hk hb' => exact hsame (by rw [hv]; rfl) hc (howed hk)
  | @markDone n _ hn hfin hv hc hk hb' =>
    refine hsame ?_ hc (howed hk)
    rw [hv]
    exact View.ledger_setNode_same s.dag.view n _ rfl rfl rfl
  | @setThrottle cat maxJobs _ hv hc hk hb' =>
    refine ⟨?_,hlisted hc,howed hk⟩
    have hbal := h.balanced
    -- nothing is submitted yet, so every limit is kept
    have hzero (c : Category) : (s.dag.view.throttles c).currentJobs = 0 := by
      have hold := hbal.category c
      rw [hempty,count_holds_nil] at hold
      exact hold
    have hcur (c : Category) : (s'.dag.view.throttles c).currentJobs = 0 := by
      rw [hv]
      simp only [View.limit]
      by_cases hcc : c = cat
      · subst hcc
        rw [update_self]
        exact hzero c
      · rw [update_of_ne hcc]
        exact hzero c
    have hrest : s'.dag.view.ledger =
        { s.dag.view.ledger with throttles := s'.dag.view.throttles } := by
      rw [hv]
      rfl
    rw [hrest,hc]
    refine ⟨hbal.hashed,hbal.owner,hbal.single,hbal.rest,hbal.total,fun c => ?_,hbal.limit,
      fun c max _ => ?_⟩
    · dsimp only
      rw [hcur,hempty,count_holds_nil]
      rfl
    · dsimp only
      rw [hcur]
      exact Int.natCast_nonneg max
  | bootstrap hv hc hk hb' =>
    refine hsame (by rw [hv]) hc (fun i p hmem => ?_)
    simp [owed,hk] at hmem

private theorem counted_init (o : Options) : Counted o {} := by
  refine ⟨⟨fun n k h => ?_,fun i c h => ?_,fun i j c d h => ?_,fun n _ => rfl,rfl,fun cat => rfl,
    fun _ => ?_,fun cat max _ => ?_⟩,fun n h => ?_,fun i p h => ?_⟩
  · simp [View.ledger,Dag.view,Job.view] at h
  · simp at h
  · simp at h
  · exact Int.natCast_nonneg _
  · exact Int.natCast_nonneg _
  · simp [holds] at h
  · simp [owed] at h

private theorem counted_step (hord : Orderly s) (h : Counted o s) (hend : EndsComplete s l)
    (hidle : SubmitsIdle o s) (hs : s.step o l = some s') : Counted o s' := by
  cases hb : s.bootstrapped with
  | false =>
    obtain ⟨action,-,hm⟩ := step_builds hb (hord.building hb).1 hs
    exact counted_builds hord h hb hm
  | true => exact counted_moves hord h (step_moves hb hs) hend hidle

def KeepsCounts (o : Options) (s : System) (l : Label) : Prop := EndsComplete s l ∧ SubmitsIdle o s
deriving Decidable

/-- The count of submitted jobs is the number of nodes with an outstanding cluster, so is that of
every category, and the limits are kept. -/
theorem jobsSubmitted_of_run {labels : List Label}
    (hok : Along (System.step o) (KeepsCounts o) {} labels)
    (hrun : run (System.step o) {} labels = some s) :
    s.dag.numJobsSubmitted = count s.dag.numNodes (holds s.clusters) ∧
    0 ≤ s.dag.numJobsSubmitted ∧
    (o.maxJobsSubmitted ≠ 0 → s.dag.numJobsSubmitted ≤ o.maxJobsSubmitted) ∧
    ∀ cat, (s.dag.throttles cat).currentJobs = count s.dag.numNodes (fun m =>
        holds s.clusters m && (s.dag.jobs m).throttle == some cat) ∧
      ∀ max, (s.dag.throttles cat).maxJobs = some max →
        (s.dag.throttles cat).currentJobs ≤ max := by
  have hstep (s : System) (l : Label) (s' : System) (h : Orderly s ∧ Counted o s)
      (hok : KeepsCounts o s l) (hs : s.step o l = some s') : Orderly s' ∧ Counted o s' :=
    ⟨orderly_step h.1 hs,counted_step h.1 h.2 hok.1 hok.2 hs⟩
  obtain ⟨-,hcounted⟩ := run_invariant hstep hok ⟨orderly_init,counted_init o⟩ hrun
  have hbal := hcounted.balanced
  have htotal : s.dag.numJobsSubmitted = count s.dag.numNodes (holds s.clusters) := hbal.total
  exact ⟨htotal,by omega,hbal.limit,fun cat => ⟨hbal.category cat,hbal.limits cat⟩⟩

/-- Two nodes of a category that allows one at a time: the second one is deferred. -/
theorem jobsSubmitted_of_run_throttled :
    let o : Options := { maxJobsSubmitted := 2 }
    let labels : List Label := [.act (.addNode { throttle := some "io" }),
      .act (.addNode { throttle := some "io" }),.act (.setThrottle "io" 1),.act .bootstrap,
      .exec {},.exec {},.exec {},.exec {},.exec {},.exec {},.act (.submitReadyJobs 0 false),
      .exec { submitted := some (.condor 1,1) },.exec {},.exec {},.exec {},
      .act (.submitEvent 0 0),.act (.submitEvent 0 1),
      .act (.endEvent 0 0 (.terminated (.exited 0)) {}),.exec {}]
    ∃ s, run (System.step o) {} labels = some s ∧ s.dag.readyQ = [(1,0)] ∧
      s.dag.numJobsSubmitted = 1 ∧
      s.dag.numJobsSubmitted = count s.dag.numNodes (holds s.clusters) := by
  intro o labels
  obtain ⟨s,hrun,hs⟩ := run_exists (System.step o) {} labels
    (fun s => decide (s.dag.readyQ = [(1,0)] ∧ s.dag.numJobsSubmitted = 1)) (by decide)
  have hs := of_decide_eq_true hs
  have hok : Along (System.step o) (KeepsCounts o) {} labels := by decide
  exact ⟨s,hrun,hs.1,hs.2,(jobsSubmitted_of_run hok hrun).1⟩

/-- A proc that ends before the submit event of its sibling is read gives its node's place back, and
so does the sibling. -/
theorem jobsSubmitted_decremented_twice :
    let labels : List Label := [.act (.addNode {}),.act (.addNode {}),.act .bootstrap,
      .exec {},.exec {},.exec {},.exec {},.exec {},.exec {},.act (.submitReadyJobs 0 false),
      .exec { submitted := some (.condor 1,1) },.exec { submitted := some (.condor 2,0) },
      .exec {},.exec {},
      .act (.submitEvent 0 0),.act (.endEvent 0 0 (.terminated (.exited 0)) {}),.exec {},
      .act (.submitEvent 0 1),.act (.endEvent 0 1 (.terminated (.exited 0)) {}),.exec {}]
    ∃ s, run (System.step {}) {} labels = some s ∧ s.dag.numJobsSubmitted = 0 ∧
      count s.dag.numNodes (holds s.clusters) = 1 := by
  intro labels
  obtain ⟨s,hrun,hs⟩ := run_exists (System.step {}) {} labels
    (fun s => decide (s.dag.numJobsSubmitted = 0 ∧
      count s.dag.numNodes (holds s.clusters) = 1)) (by decide)
  exact ⟨s,hrun,of_decide_eq_true hs⟩

end System

end Condor.Dagman
