import Condor.Dagman.Begun
import Condor.Lib.Tally

/-!
# Outstanding clusters

A cluster is outstanding until all of its procs have ended.
-/

namespace Condor.Dagman

open Lib List Function Option

namespace Cluster

def outstanding (c : Cluster) : Bool := c.procs.any (· != .ended)

def queuedProcs (c : Cluster) : Nat := c.procs.count .queued

theorem outstanding_of_getElem {c : Cluster} {p : Nat} {x : ProcState} (h : c.procs[p]? = some x)
    (hx : x ≠ .ended) : c.outstanding = true := by
  rw [outstanding,List.any_eq_true]
  exact ⟨x,mem_of_getElem? h,by simpa using hx⟩

theorem queuedProcs_set {c : Cluster} {p : Nat} {x y : ProcState} (h : c.procs[p]? = some x) :
    (c.procs.set p y).count .queued + (if x = .queued then 1 else 0) =
      c.procs.count .queued + if y = .queued then 1 else 0 := by
  obtain ⟨hp,hx⟩ := List.getElem?_eq_some_iff.mp h
  have hpos : x = .queued → 0 < c.procs.count .queued := by
    rintro rfl
    exact List.count_pos_iff.mpr (mem_of_getElem? h)
  rw [count_set hp,hx]
  simp only [beq_iff_eq]
  split
  · next hq =>
    have := hpos hq
    omega
  · omega

theorem not_outstanding_set {c : Cluster} {p : Nat} (h : c.procs[p]? = some .queued)
    (hq : c.procs.count .queued = 1) (hpend : ProcState.pending ∉ c.procs) :
    ({ c with procs := c.procs.set p .ended } : Cluster).outstanding = false := by
  have hcount := queuedProcs_set (y := .ended) h
  simp only [if_true,reduceCtorEq,if_false,Nat.add_zero] at hcount
  have hnone : ProcState.queued ∉ c.procs.set p .ended := by
    intro hmem
    have := List.count_pos_iff.mpr hmem
    omega
  rw [outstanding,List.any_eq_false]
  intro x hx
  cases x with
  | pending =>
    rcases mem_or_eq_of_mem_set hx with hx | hx
    · exact absurd hx hpend
    · simp at hx
  | queued => exact absurd hx hnone
  | ended => simp

end Cluster

def holds (clusters : List Cluster) (m : JobID) : Bool :=
  clusters.any fun c => c.node == m && c.outstanding

theorem holds_iff {clusters : List Cluster} {m : JobID} : holds clusters m = true ↔
    ∃ (i : Nat) (c : Cluster), clusters[i]? = some c ∧ c.outstanding = true ∧ c.node = m := by
  simp only [holds,List.any_eq_true,Bool.and_eq_true,beq_iff_eq]
  constructor
  · rintro ⟨c,hc,hn,hout⟩
    obtain ⟨i,hi⟩ := List.mem_iff_getElem?.mp hc
    exact ⟨i,c,hi,hout,hn⟩
  · rintro ⟨i,c,hi,hout,hn⟩
    exact ⟨c,mem_of_getElem? hi,hn,hout⟩

def OneEach (clusters : List Cluster) : Prop :=
  ∀ (i j : Nat) (c d : Cluster), clusters[i]? = some c → clusters[j]? = some d →
    c.outstanding = true →
    d.outstanding = true → c.node = d.node → i = j

section Set

variable {clusters : List Cluster} {i : Nat} {c c' : Cluster}

theorem getElem?_set_cases (hi : clusters[i]? = some c) {j : Nat} {d : Cluster}
    (h : (clusters.set i c')[j]? = some d) :
    (j = i ∧ d = c') ∨ (j ≠ i ∧ clusters[j]? = some d) := by
  obtain ⟨hlt,-⟩ := List.getElem?_eq_some_iff.mp hi
  by_cases hj : i = j
  · subst hj
    rw [getElem?_set_self hlt] at h
    exact .inl ⟨rfl,(some.inj h).symm⟩
  · rw [getElem?_set_ne hj] at h
    exact .inr ⟨Ne.symm hj,h⟩

variable {procs : List ProcState}

private theorem holds_set_true (hi : clusters[i]? = some c) (hc : c.outstanding = true)
    (hc' : ({ c with procs := procs } : Cluster).outstanding = true) (m : JobID) :
    holds (clusters.set i { c with procs := procs }) m = holds clusters m := by
  obtain ⟨hlt,-⟩ := List.getElem?_eq_some_iff.mp hi
  rw [Bool.eq_iff_iff,holds_iff,holds_iff]
  constructor
  · rintro ⟨j,d,hj,hout,hm⟩
    rcases getElem?_set_cases hi hj with ⟨rfl,rfl⟩ | ⟨-,hj⟩
    · exact ⟨j,c,hi,hc,hm⟩
    · exact ⟨j,d,hj,hout,hm⟩
  · rintro ⟨j,d,hj,hout,hm⟩
    by_cases hji : i = j
    · subst hji
      obtain rfl : c = d := some.inj (hi.symm.trans hj)
      exact ⟨i,_,getElem?_set_self hlt,hc',hm⟩
    · exact ⟨j,d,by rw [getElem?_set_ne hji]; exact hj,hout,hm⟩

theorem holds_set_false (hone : OneEach clusters) (hi : clusters[i]? = some c)
    (hc : c.outstanding = true) (hc' : c'.outstanding = false) (m : JobID) :
    holds (clusters.set i c') m = (holds clusters m && m != c.node) := by
  rw [Bool.eq_iff_iff,Bool.and_eq_true,bne_iff_ne,holds_iff,holds_iff]
  constructor
  · rintro ⟨j,d,hj,hout,hm⟩
    rcases getElem?_set_cases hi hj with ⟨rfl,rfl⟩ | ⟨hne,hj⟩
    · rw [hc'] at hout
      simp at hout
    · refine ⟨⟨j,d,hj,hout,hm⟩,fun heq => hne ?_⟩
      exact hone j i d c hj hi hout hc (hm.trans heq)
  · rintro ⟨⟨j,d,hj,hout,hm⟩,hne⟩
    have hji : i ≠ j := by
      rintro rfl
      obtain rfl : c = d := some.inj (hi.symm.trans hj)
      exact hne hm.symm
    exact ⟨j,d,by rw [getElem?_set_ne hji]; exact hj,hout,hm⟩

private theorem oneEach_set (hone : OneEach clusters) (hi : clusters[i]? = some c)
    (hc : c.outstanding = true) : OneEach (clusters.set i { c with procs := procs }) := by
  intro j k d e hj hk hd he hnode
  rcases getElem?_set_cases hi hj with ⟨rfl,rfl⟩ | ⟨-,hj'⟩
  · rcases getElem?_set_cases hi hk with ⟨rfl,rfl⟩ | ⟨-,hk⟩
    · rfl
    · exact hone j k c e hi hk hc he hnode
  · rcases getElem?_set_cases hi hk with ⟨rfl,rfl⟩ | ⟨-,hk⟩
    · exact hone j k d c hj' hi hd hc hnode
    · exact hone j k d e hj' hk hd he hnode

end Set

theorem holds_append (clusters : List Cluster) (c : Cluster) (m : JobID) :
    holds (clusters ++ [c]) m = (holds clusters m || (c.node == m && c.outstanding)) := by
  simp [holds]

theorem oneEach_append {clusters : List Cluster} {c : Cluster} (hone : OneEach clusters)
    (hc : holds clusters c.node = false) : OneEach (clusters ++ [c]) := by
  have hnew {j : Nat} {d : Cluster} (hj : (clusters ++ [c])[j]? = some d) :
      clusters[j]? = some d ∨ (j = clusters.length ∧ d = c) := by
    rcases Nat.lt_or_ge j clusters.length with hlt | hge
    · rw [getElem?_append_left hlt] at hj
      exact .inl hj
    · rw [getElem?_append_right hge] at hj
      have hz : j - clusters.length = 0 := by
        have := (List.getElem?_eq_some_iff.mp hj).1
        simpa using this
      rw [hz] at hj
      exact .inr ⟨by omega,(some.inj hj).symm⟩
  have hno {j : Nat} {d : Cluster} (hj : clusters[j]? = some d) (hd : d.outstanding = true) :
      d.node ≠ c.node := by
    intro heq
    rw [holds_iff.mpr ⟨j,d,hj,hd,heq⟩] at hc
    simp at hc
  intro j k d e hj hk hd he hnode
  rcases hnew hj with hj' | ⟨rfl,rfl⟩
  · rcases hnew hk with hk | ⟨rfl,rfl⟩
    · exact hone j k d e hj' hk hd he hnode
    · exact absurd hnode (hno hj' hd)
  · rcases hnew hk with hk | ⟨rfl,rfl⟩
    · exact absurd hnode.symm (hno hk he)
    · rfl

@[ext]
structure Ledger where
  numNodes : Nat
  hash : EventKey → Option JobID
  queued : JobID → Int
  condorID : JobID → Option EventKey
  throttle : JobID → Option Category
  throttles : Category → ThrottleInfo
  jobsSubmitted : Int

namespace View

def ledger (v : View) : Ledger where
  numNodes := v.numNodes
  hash := v.hash
  queued m := (v.node m).queued
  condorID m := (v.node m).condorID
  throttle m := (v.node m).throttle
  throttles := v.throttles
  jobsSubmitted := v.jobsSubmitted

theorem ledger_setNode (v : View) (n : JobID) (x : NodeView) : (v.setNode n x).ledger =
    { v.ledger with
      queued := update v.ledger.queued n x.queued
      condorID := update v.ledger.condorID n x.condorID
      throttle := update v.ledger.throttle n x.throttle } := by
  have h {α : Type} (f : NodeView → α) : (fun m => f ((v.setNode n x).node m)) =
      update (fun m => f (v.node m)) n (f x) := by
    funext m
    by_cases hm : m = n
    · subst hm
      rw [setNode_node_self,update_self]
    · rw [update_of_ne hm]
      simp only [setNode,update_of_ne hm]
  ext1
  · rfl
  · rfl
  · exact h NodeView.queued
  · exact h NodeView.condorID
  · exact h NodeView.throttle
  · rfl
  · rfl

theorem ledger_setNode_same (v : View) (n : JobID) (x : NodeView)
    (hq : x.queued = (v.node n).queued) (hid : x.condorID = (v.node n).condorID)
    (ht : x.throttle = (v.node n).throttle) : (v.setNode n x).ledger = v.ledger := by
  rw [ledger_setNode,hq,hid,ht]
  apply Ledger.ext
  · rfl
  · rfl
  · exact update_eq_self n v.ledger.queued
  · exact update_eq_self n v.ledger.condorID
  · exact update_eq_self n v.ledger.throttle
  · rfl
  · rfl

private theorem ledger_setQueued (v : View) (n : JobID) (q : Int) :
    (v.setNode n { v.node n with queued := q }).ledger =
      { v.ledger with queued := update v.ledger.queued n q } := by
  rw [ledger_setNode]
  apply Ledger.ext
  · rfl
  · rfl
  · rfl
  · exact update_eq_self n v.ledger.condorID
  · exact update_eq_self n v.ledger.throttle
  · rfl
  · rfl

private theorem ledger_setID (v : View) (n : JobID) (id : Option EventKey) :
    (v.setNode n { v.node n with condorID := id }).ledger =
      { v.ledger with condorID := update v.ledger.condorID n id } := by
  rw [ledger_setNode]
  apply Ledger.ext
  · rfl
  · rfl
  · exact update_eq_self n v.ledger.queued
  · rfl
  · exact update_eq_self n v.ledger.throttle
  · rfl
  · rfl

private theorem ledger_assign (v : View) (n : JobID) (key : EventKey) : (v.assign n key).ledger =
    { v.ledger with
      hash := update v.hash key (some n)
      condorID := update v.ledger.condorID n (some key) } :=
  congrArg (fun w : Ledger => { w with hash := update v.hash key (some n) })
    (ledger_setID v n (some key))

@[simp] theorem ledger_settle (v : View) (n : JobID) (fate : Fate) (k : Nat) :
    (v.settle n fate k).ledger = v.ledger := by
  cases fate with
  | finished =>
    exact ledger_setNode_same v n
      { v.node n with status := .done, retries := k, countedAsDone := true } rfl rfl rfl
  | _ => exact ledger_setNode_same v n { v.node n with status := _, retries := k } rfl rfl rfl

@[simp] theorem ledger_handle (v : View) (n : JobID) (j : Job) (fate : Option Fate) :
    (v.handle n j fate).ledger = v.ledger := by
  cases fate with
  | some fate => exact ledger_settle v n fate _
  | none => exact ledger_setNode_same v n _ rfl rfl rfl

@[simp] theorem ledger_startFinal (v : View) (f : JobID) : (v.startFinal f).ledger = v.ledger :=
  ledger_setNode_same v f { v.node f with status := .ready } rfl rfl rfl

@[simp] theorem ledger_release (v : View) (p c : JobID) : (v.release p c).ledger = v.ledger :=
  ledger_setNode_same v c _ rfl rfl rfl

@[simp] theorem ledger_leave (v : View) (post : Bool) : (v.leave post).ledger = v.ledger := by
  cases post <;> rfl

end View

namespace Ledger

def countJob (w : Ledger) (n : JobID) (change : Int) : Ledger :=
  { w with
    jobsSubmitted := w.jobsSubmitted + change
    throttles := match w.throttle n with
      | none => w.throttles
      | some c => update w.throttles c
          { w.throttles c with currentJobs := (w.throttles c).currentJobs + change } }

theorem countJob_throttles (w : Ledger) (n : JobID) (change : Int) (cat : Category) :
    ((w.countJob n change).throttles cat).currentJobs =
        (w.throttles cat).currentJobs + (if w.throttle n = some cat then change else 0) ∧
      ((w.countJob n change).throttles cat).maxJobs = (w.throttles cat).maxJobs := by
  unfold countJob
  dsimp only
  cases ht : w.throttle n with
  | none => simp
  | some c =>
    by_cases hc : cat = c
    · subst hc
      simp
    · have hne : some c ≠ some cat := fun he => hc (some.inj he).symm
      dsimp only
      rw [update_of_ne hc,if_neg hne,Int.add_zero]
      exact ⟨rfl,rfl⟩

end Ledger

theorem View.ledger_countJob (v : View) (n : JobID) (change : Int) :
    (v.countJob n change).ledger = v.ledger.countJob n change := rfl

structure Balanced (o : Options) (w : Ledger) (clusters : List Cluster) : Prop where
  hashed : ∀ n k, w.condorID n = some k → w.hash k = some n
  owner : ∀ (i : Nat) c, clusters[i]? = some c → c.outstanding = true →
    w.condorID c.node = some c.key ∧ w.queued c.node = c.queuedProcs
  single : OneEach clusters
  rest : ∀ n, holds clusters n = false → w.queued n = 0
  total : w.jobsSubmitted = count w.numNodes (holds clusters)
  category : ∀ cat, (w.throttles cat).currentJobs =
    count w.numNodes fun m => holds clusters m && w.throttle m == some cat
  limit : o.maxJobsSubmitted ≠ 0 → w.jobsSubmitted ≤ o.maxJobsSubmitted
  limits : ∀ cat max, (w.throttles cat).maxJobs = some max → (w.throttles cat).currentJobs ≤ max

namespace Balanced

variable {o : Options} {v : View} {clusters : List Cluster}

theorem hash_owner (h : Balanced o v.ledger clusters) {i : Nat} {c : Cluster}
    (hi : clusters[i]? = some c) (hc : c.outstanding = true) : v.hash c.key = some c.node :=
  h.hashed c.node c.key (h.owner i c hi hc).1

theorem seeSubmit (h : Balanced o v.ledger clusters) {i p : Nat} {c : Cluster}
    (hi : clusters[i]? = some c) (hpr : c.procs[p]? = some .pending) :
    Balanced o (v.seeSubmit c.node c.key true).ledger
      (clusters.set i { c with procs := c.procs.set p .queued }) := by
  have hc : c.outstanding = true := Cluster.outstanding_of_getElem hpr (by simp)
  have hc' : ({ c with procs := c.procs.set p .queued } : Cluster).outstanding = true := by
    obtain ⟨hp,-⟩ := List.getElem?_eq_some_iff.mp hpr
    have hget : (c.procs.set p .queued)[p]? = some .queued := getElem?_set_self hp
    exact Cluster.outstanding_of_getElem (c := { c with procs := c.procs.set p .queued }) hget
      (by simp)
  obtain ⟨hid,hq⟩ := h.owner i c hi hc
  have hholds (m : JobID) := holds_set_true hi hc hc' m
  -- only the number of queued procs changes
  have hledger : (v.seeSubmit c.node c.key true).ledger = { v.ledger with
      queued := update v.ledger.queued c.node (v.ledger.queued c.node + 1) } := by
    have hhash : update v.hash c.key (some c.node) = v.hash := by
      rw [← h.hash_owner hi hc]
      exact update_eq_self c.key _
    have hids : update v.ledger.condorID c.node (some c.key) = v.ledger.condorID := by
      rw [← hid]
      exact update_eq_self c.node _
    have hassign : (v.assign c.node c.key).ledger = v.ledger := by
      rw [View.ledger_assign,hhash,hids]
      rfl
    have hold : ((v.assign c.node c.key).node c.node).queued = v.ledger.queued c.node :=
      congrFun (congrArg Ledger.queued hassign) c.node
    simp only [View.seeSubmit,if_true]
    rw [View.ledger_setQueued,hassign,hold]
  rw [hledger]
  refine ⟨h.hashed,fun j d hj hd => ?_,oneEach_set h.single hi hc,fun n hn => ?_,?_,
    fun cat => ?_,h.limit,h.limits⟩
  · rcases getElem?_set_cases hi hj with ⟨rfl,rfl⟩ | ⟨hne,hj⟩
    · refine ⟨hid,?_⟩
      have hcount := Cluster.queuedProcs_set (y := .queued) hpr
      simp only [if_true,reduceCtorEq,if_false,Nat.add_zero] at hcount
      simp only [update_self,Cluster.queuedProcs] at hq ⊢
      rw [hq,hcount]
      rfl
    · have hdn : d.node ≠ c.node := fun heq => hne (h.single j i d c hj hi hd hc heq)
      dsimp only
      rw [update_of_ne hdn]
      exact h.owner j d hj hd
  · rw [hholds] at hn
    have hnc : n ≠ c.node := by
      rintro rfl
      rw [holds_iff.mpr ⟨i,c,hi,hc,rfl⟩] at hn
      simp at hn
    dsimp only
    rw [update_of_ne hnc]
    exact h.rest n hn
  · rw [show holds (clusters.set i _) = holds clusters from funext hholds]
    exact h.total
  · rw [show holds (clusters.set i _) = holds clusters from funext hholds]
    exact h.category cat

private theorem count_holds {w : Ledger} {clusters' : List Cluster} {n : JobID}
    (hn : n < w.numNodes) (hother : ∀ m, m ≠ n → holds clusters' m = holds clusters m) :
    count w.numNodes (holds clusters') + (holds clusters n).toNat =
        count w.numNodes (holds clusters) + (holds clusters' n).toNat ∧
      ∀ cat, count w.numNodes (fun m => holds clusters' m && w.throttle m == some cat) +
          (holds clusters n && w.throttle n == some cat).toNat =
        count w.numNodes (fun m => holds clusters m && w.throttle m == some cat) +
          (holds clusters' n && w.throttle n == some cat).toNat := by
  refine ⟨count_update _ _ hn hother,fun cat => ?_⟩
  refine count_update (fun m => holds clusters m && w.throttle m == some cat)
    (fun m => holds clusters' m && w.throttle m == some cat) hn fun m hm => ?_
  rw [hother m hm]

theorem endProc (h : Balanced o v.ledger clusters) {i p : Nat} {c : Cluster}
    (hi : clusters[i]? = some c) (hpr : c.procs[p]? = some .queued) (hN : c.node < v.numNodes)
    (hlast : (v.node c.node).queued = 1 → ProcState.pending ∉ c.procs) :
    Balanced o (v.endProc c.node).ledger
      (clusters.set i { c with procs := c.procs.set p .ended }) := by
  have hc : c.outstanding = true := Cluster.outstanding_of_getElem hpr (by simp)
  obtain ⟨hid,hq⟩ := h.owner i c hi hc
  have hcount := Cluster.queuedProcs_set (y := .ended) hpr
  simp only [if_true,reduceCtorEq,if_false,Nat.add_zero] at hcount
  have hq : (v.node c.node).queued = (c.procs.count .queued : Nat) := hq
  generalize hclusters : clusters.set i { c with procs := c.procs.set p .ended } = clusters'
  -- the node's own entry, whether or not the cluster is still outstanding
  have howner (w : Ledger) (hw : w.condorID = v.ledger.condorID)
      (hwq : w.queued = update v.ledger.queued c.node ((v.node c.node).queued - 1))
      (j : Nat) (d : Cluster) (hj : clusters'[j]? = some d) (hd : d.outstanding = true) :
      w.condorID d.node = some d.key ∧ w.queued d.node = d.queuedProcs := by
    rw [hw,hwq]
    rw [← hclusters] at hj
    rcases getElem?_set_cases hi hj with ⟨rfl,rfl⟩ | ⟨hne,hj⟩
    · refine ⟨hid,?_⟩
      rw [update_self,hq]
      simp only [Cluster.queuedProcs]
      omega
    · have hdn : d.node ≠ c.node := fun heq => hne (h.single j i d c hj hi hd hc heq)
      rw [update_of_ne hdn]
      exact h.owner j d hj hd
  have hsingle : OneEach clusters' := hclusters ▸ oneEach_set h.single hi hc
  have hheld : holds clusters c.node = true := holds_iff.mpr ⟨i,c,hi,hc,rfl⟩
  unfold View.endProc
  dsimp only
  split
  · next hone =>
    -- the last proc: the node gives its place back
    have hq1 : c.procs.count .queued = 1 := by omega
    have hc' := Cluster.not_outstanding_set hpr hq1 (hlast hone)
    have hholds (m : JobID) : holds clusters' m = (holds clusters m && m != c.node) :=
      hclusters ▸ holds_set_false h.single hi hc hc' m
    have hheld' : holds clusters' c.node = false := by rw [hholds]; simp
    have hother (m : JobID) (hm : m ≠ c.node) : holds clusters' m = holds clusters m := by
      rw [hholds]
      simp [hm]
    obtain ⟨htotal,hcat⟩ := count_holds (w := v.ledger) hN hother
    rw [View.ledger_countJob,View.ledger_setQueued]
    have hthr := Ledger.countJob_throttles { v.ledger with
      queued := update v.ledger.queued c.node ((v.node c.node).queued - 1) } c.node (-1)
    refine ⟨h.hashed,howner _ rfl rfl,hsingle,fun n hn => ?_,?_,fun cat => ?_,fun hmax => ?_,
      fun cat max hmax => ?_⟩
    · change update v.ledger.queued c.node _ n = 0
      by_cases hnc : n = c.node
      · subst hnc
        rw [update_self,hone]
        rfl
      · rw [update_of_ne hnc]
        apply h.rest
        rw [← hother n hnc]
        exact hn
    · have hold := h.total
      rw [hheld,hheld'] at htotal
      change v.ledger.jobsSubmitted + -1 = (count v.ledger.numNodes (holds clusters') : Nat)
      simp only [Bool.toNat_true,Bool.toNat_false] at htotal
      omega
    · have hold := h.category cat
      have hc2 := hcat cat
      rw [(hthr cat).1]
      change (v.ledger.throttles cat).currentJobs +
        (if v.ledger.throttle c.node = some cat then -1 else 0) = (count v.ledger.numNodes
          (fun m => holds clusters' m && v.ledger.throttle m == some cat) : Nat)
      rw [hheld,hheld'] at hc2
      by_cases ht : v.ledger.throttle c.node = some cat
      · rw [if_pos ht]
        simp only [ht,BEq.rfl,Bool.and_self,Bool.false_and,Bool.toNat_true,Bool.toNat_false] at hc2
        omega
      · rw [if_neg ht]
        simp only [Bool.true_and,Bool.false_and,Bool.toNat_false,beq_eq_false_iff_ne.mpr ht] at hc2
        omega
    · have hold := h.limit hmax
      change v.ledger.jobsSubmitted + -1 ≤ _
      omega
    · rw [(hthr cat).2] at hmax
      rw [(hthr cat).1]
      have hold := h.limits cat max hmax
      dsimp only
      split
      · omega
      · omega
  · next hmore =>
    have hc' : ({ c with procs := c.procs.set p .ended } : Cluster).outstanding = true := by
      have hpos : 0 < (c.procs.set p .ended).count .queued := by
        have : 0 < c.procs.count .queued := List.count_pos_iff.mpr (mem_of_getElem? hpr)
        omega
      obtain ⟨j,hj⟩ := List.mem_iff_getElem?.mp (List.count_pos_iff.mp hpos)
      exact Cluster.outstanding_of_getElem (c := { c with procs := c.procs.set p .ended }) hj
        (by simp)
    have hholds : holds clusters' = holds clusters := by
      funext m
      rw [← hclusters]
      exact holds_set_true hi hc hc' m
    rw [View.ledger_setQueued]
    refine ⟨h.hashed,howner _ rfl rfl,hsingle,fun n hn => ?_,?_,fun cat => ?_,h.limit,h.limits⟩
    · rw [hholds] at hn
      have hnc : n ≠ c.node := by
        rintro rfl
        rw [hheld] at hn
        simp at hn
      dsimp only
      rw [update_of_ne hnc]
      exact h.rest n hn
    · rw [hholds]
      exact h.total
    · rw [hholds]
      exact h.category cat

theorem attempt (h : Balanced o v.ledger clusters) {n : JobID}
    (hn : holds clusters n = false) : Balanced o (Dag.attempt v n).ledger clusters := by
  unfold Dag.attempt View.forget
  dsimp only
  split
  · exact h
  · next key hkey =>
    have hkey : v.ledger.condorID n = some key := hkey
    have hledger : ({ v.setNode n { v.node n with condorID := none } with
        ready := update v.ready n (v.ready n - 1)
        hash := update v.hash key none } : View).ledger = { v.ledger with
          hash := update v.hash key none
          condorID := update v.ledger.condorID n none } :=
      congrArg (fun w : Ledger => { w with hash := update v.hash key none })
        (View.ledger_setID v n none)
    refine Eq.mpr (congrArg (fun w => Balanced o w clusters) hledger) ?_
    refine ⟨fun m k hm => ?_,fun i c hi hc => ?_,h.single,h.rest,h.total,h.category,h.limit,
      h.limits⟩
    · dsimp only at hm ⊢
      have hmn : m ≠ n := by
        rintro rfl
        rw [update_self] at hm
        simp at hm
      rw [update_of_ne hmn] at hm
      have hkk : k ≠ key := by
        rintro rfl
        have h1 := h.hashed m k hm
        have h2 := h.hashed n k hkey
        exact hmn (some.inj (h1.symm.trans h2))
      rw [update_of_ne hkk]
      exact h.hashed m k hm
    · have hcn : c.node ≠ n := by
        rintro rfl
        rw [holds_iff.mpr ⟨i,c,hi,hc,rfl⟩] at hn
        simp at hn
      dsimp only
      rw [update_of_ne hcn]
      exact h.owner i c hi hc

theorem submitted (h : Balanced o v.ledger clusters) {n : JobID} (key : EventKey)
    (moreProcs : Nat) (hN : n < v.numNodes) (hn : holds clusters n = false)
    (hkey : v.hash key = none)
    (hmax : o.maxJobsSubmitted ≠ 0 → v.jobsSubmitted < o.maxJobsSubmitted)
    (hthr : ∀ cat max, (v.node n).throttle = some cat → (v.throttles cat).maxJobs = some max →
      (v.throttles cat).currentJobs < max) :
    Balanced o (((v.setNode n { v.node n with status := .submitted }).countJob n 1).assign n
      key).ledger (clusters ++ [⟨key,n,List.replicate (moreProcs + 1) .pending⟩]) := by
  generalize hcl : clusters ++ [(⟨key,n,List.replicate (moreProcs + 1) .pending⟩ : Cluster)] =
    clusters'
  have hout : (⟨key,n,List.replicate (moreProcs + 1) .pending⟩ : Cluster).outstanding = true := by
    simp [Cluster.outstanding,replicate_succ]
  have hholds (m : JobID) : holds clusters' m = (holds clusters m || n == m) := by
    rw [← hcl,holds_append,hout,Bool.and_true]
  have hheld : holds clusters' n = true := by rw [hholds]; simp
  have hother (m : JobID) (hm : m ≠ n) : holds clusters' m = holds clusters m := by
    rw [hholds]
    simp [Ne.symm hm]
  obtain ⟨htotal,hcat⟩ := count_holds (w := v.ledger) hN hother
  have hstatus : (v.setNode n { v.node n with status := .submitted }).ledger = v.ledger :=
    View.ledger_setNode_same v n _ rfl rfl rfl
  rw [View.ledger_assign,View.ledger_countJob,hstatus]
  have hcount := Ledger.countJob_throttles v.ledger n 1
  have hhash : ((v.setNode n { v.node n with status := .submitted }).countJob n 1).hash = v.hash :=
    rfl
  rw [hhash]
  refine ⟨fun m k hm => ?_,fun i c hi hc => ?_,?_,fun m hm => ?_,?_,fun cat => ?_,fun hz => ?_,
    fun cat max hz => ?_⟩
  · dsimp only at hm ⊢
    by_cases hmn : m = n
    · subst hmn
      rw [update_self] at hm
      obtain rfl := some.inj hm
      exact update_self ..
    · rw [update_of_ne hmn] at hm
      have hold := h.hashed m k hm
      have hkk : k ≠ key := by
        rintro rfl
        have hold' : v.hash k = some m := hold
        rw [hkey] at hold'
        simp at hold'
      rw [update_of_ne hkk]
      exact hold
  · rw [← hcl] at hi
    dsimp only
    rcases Nat.lt_or_ge i clusters.length with hlt | hge
    · rw [getElem?_append_left hlt] at hi
      have hcn : c.node ≠ n := by
        rintro rfl
        rw [holds_iff.mpr ⟨i,c,hi,hc,rfl⟩] at hn
        simp at hn
      rw [update_of_ne hcn]
      exact h.owner i c hi hc
    · rw [getElem?_append_right hge] at hi
      have hlt := (List.getElem?_eq_some_iff.mp hi).1
      have hz : i - clusters.length = 0 := by simpa using hlt
      rw [hz] at hi
      obtain rfl := some.inj hi
      refine ⟨update_self ..,?_⟩
      have hq := h.rest n hn
      simp [Cluster.queuedProcs,count_replicate]
      exact hq
  · rw [← hcl]
    exact oneEach_append h.single hn
  · by_cases hmn : m = n
    · rw [hmn,hheld] at hm
      simp at hm
    · rw [hother m hmn] at hm
      exact h.rest m hm
  · have hold := h.total
    rw [hheld,hn] at htotal
    simp only [Bool.toNat_true,Bool.toNat_false] at htotal
    change v.ledger.jobsSubmitted + 1 = (count v.ledger.numNodes (holds clusters') : Nat)
    omega
  · have hold := h.category cat
    have hc2 := hcat cat
    change ((v.ledger.countJob n 1).throttles cat).currentJobs = (count v.ledger.numNodes
      (fun m => holds clusters' m && v.ledger.throttle m == some cat) : Nat)
    rw [(hcount cat).1]
    rw [hheld,hn] at hc2
    by_cases ht : v.ledger.throttle n = some cat
    · rw [if_pos ht]
      simp only [ht,BEq.rfl,Bool.and_self,Bool.false_and,Bool.toNat_true,Bool.toNat_false] at hc2
      omega
    · rw [if_neg ht]
      simp only [Bool.true_and,Bool.false_and,Bool.toNat_false,beq_eq_false_iff_ne.mpr ht] at hc2
      omega
  · have hold := hmax hz
    change v.jobsSubmitted + 1 ≤ _
    omega
  · change ((v.ledger.countJob n 1).throttles cat).maxJobs = some max at hz
    change ((v.ledger.countJob n 1).throttles cat).currentJobs ≤ max
    rw [(hcount cat).2] at hz
    rw [(hcount cat).1]
    by_cases ht : v.ledger.throttle n = some cat
    · rw [if_pos ht]
      have hlt := hthr cat max ht hz
      have hsame : (v.ledger.throttles cat).currentJobs = (v.throttles cat).currentJobs := rfl
      omega
    · rw [if_neg ht,Int.add_zero]
      exact h.limits cat max hz

end Balanced

end Condor.Dagman
