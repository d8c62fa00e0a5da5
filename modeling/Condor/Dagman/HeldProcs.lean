import Condor.Dagman.HoldCounts

/-!
# Procs on hold

The counts of the procs on hold against the log: which live procs have a held event as their last
hold-type event.
-/

namespace Condor.Dagman

open Lib List Option

inductive HoldEvent where
  | held
  | released
  | aborted
  | terminated
  deriving DecidableEq

def HoldEvent.ends : HoldEvent → Bool
  | held | released => false
  | aborted | terminated => true

def Label.holdEvent : Label → Option (HoldEvent × Nat × Nat)
  | .act (.quietEvent i p .held) => some (.held,i,p)
  | .act (.quietEvent i p .released) => some (.released,i,p)
  | .act (.endEvent i p .aborted _) => some (.aborted,i,p)
  | .act (.endEvent i p (.terminated _) _) => some (.terminated,i,p)
  | _ => none

def heldAfter (held : Finset (Nat × Nat)) (l : Label) : Finset (Nat × Nat) :=
  match l.holdEvent with
  | none => held
  | some (.held,x) => insert x held
  | some (_,x) => held.erase x

/-- The procs whose last hold has not been taken back. -/
def heldProcs (log : List Label) : Finset (Nat × Nat) := log.foldl heldAfter ∅

namespace System

def IsQueued (s : System) (x : Nat × Nat) : Prop :=
  ∃ c, s.clusters[x.1]? = some c ∧ c.procs[x.2]? = some .queued

def owner (s : System) (x : Nat × Nat) : Option JobID := (s.clusters[x.1]?).map Cluster.node

def eventNode (s : System) (x : Nat × Nat) : Option JobID :=
  (s.clusters[x.1]?).bind fun c => (s.dag.findNodeByEventID c.key).join

def holdCountsAfter (s : System) (l : Label) : Tally JobID :=
  match l.holdEvent with
  | none => s.dag.holdCounts
  | some (.held,x) => s.dag.holdCounts.changeAt (s.eventNode x) 1
  | some (.released,x) => s.dag.holdCounts.changeAt (s.eventNode x) (-1)
  | some (.aborted,x) => s.dag.holdCounts.changeAt
      ((s.eventNode x).filter fun n => (s.dag.jobs n).jobProcsOnHold > 0) (-1)
  | some (.terminated,_) => s.dag.holdCounts

variable {o : Options} {s s' : System} {l : Label}

structure HoldMoves (s : System) (l : Label) (s' : System) : Prop where
  counts : s'.dag.holdCounts = s.holdCountsAfter l
  queued : ∀ e x, l.holdEvent = some (e,x) → s.IsQueued x
  owner : ∀ x, s.IsQueued x → s'.owner x = s.owner x
  live : ∀ x, s.IsQueued x → (∀ e, l.holdEvent = some (e,x) → e.ends = false) → s'.IsQueued x

def Grows (s s' : System) : Prop :=
  ∀ x, s.IsQueued x → s'.IsQueued x ∧ s'.owner x = s.owner x

theorem Grows.of_eq (h : s'.clusters = s.clusters) : Grows s s' := by
  intro x hx
  rw [IsQueued,owner,h]
  exact ⟨hx,rfl⟩

theorem Grows.append {cs : List Cluster} (h : s'.clusters = s.clusters ++ cs) : Grows s s' := by
  intro x ⟨c,hc,hp⟩
  have hc' : s'.clusters[x.1]? = some c := by
    rw [h,getElem?_append_left (List.getElem?_eq_some_iff.mp hc).1]
    exact hc
  refine ⟨⟨c,hc',hp⟩,?_⟩
  rw [owner,owner,hc',hc]

private theorem owner_set {i : Nat} {c : Cluster} (c' : Cluster) (hi : s.clusters[i]? = some c)
    (hn : c'.node = c.node) (h : s'.clusters = s.clusters.set i c') (x : Nat × Nat) :
    s'.owner x = s.owner x := by
  rw [owner,owner,h]
  by_cases hx : x.1 = i
  · rw [hx,getElem?_set_self (List.getElem?_eq_some_iff.mp hi).1,hi]
    exact congrArg some hn
  · rw [getElem?_set_ne (Ne.symm hx)]

variable {i p : Nat}

private theorem isQueued_set {c : Cluster} {y : ProcState} (hi : s.clusters[i]? = some c)
    (h : s'.clusters = s.clusters.set i { c with procs := c.procs.set p y }) {x : Nat × Nat}
    (hx : s.IsQueued x) (hne : x = (i,p) → y = .queued) : s'.IsQueued x := by
  obtain ⟨d,hd,hp⟩ := hx
  rw [IsQueued,h]
  by_cases hxi : x.1 = i
  · rw [hxi,hi] at hd
    obtain rfl := some.inj hd
    refine ⟨_,by rw [hxi,getElem?_set_self (List.getElem?_eq_some_iff.mp hi).1],?_⟩
    show (c.procs.set p y)[x.2]? = _
    by_cases hxp : x.2 = p
    · rw [hxp,getElem?_set_self (hxp ▸ (List.getElem?_eq_some_iff.mp hp).1)]
      exact congrArg some (hne (Prod.ext hxi hxp))
    · rw [getElem?_set_ne (Ne.symm hxp)]
      exact hp
  · exact ⟨d,by rw [getElem?_set_ne (Ne.symm hxi)]; exact hd,hp⟩

private theorem advanceProc_cases {before after : ProcState} {r : Cluster × System}
    (h : s.advanceProc i p before after = some r) :
    s.clusters[i]? = some r.1 ∧ r.1.procs[p]? = some before ∧
      r.2 = { s with
        clusters := s.clusters.set i { r.1 with procs := r.1.procs.set p after } } := by
  rw [advanceProc] at h
  split at h
  · cases h
  · next c hc =>
    split at h
    · next hp =>
      rw [← some.inj h]
      exact ⟨hc,hp,rfl⟩
    · cases h

def Quiet (s s' : System) : Prop := s'.dag.holdCounts = s.dag.holdCounts ∧ Grows s s'

theorem Quiet.of_eq (hd : s'.dag.holdCounts = s.dag.holdCounts) (hc : s'.clusters = s.clusters) :
    Quiet s s' := ⟨hd,.of_eq hc⟩

private theorem Quiet.holdMoves (h : Quiet s s') (hl : l.holdEvent = none) : HoldMoves s l s' := by
  constructor
  · rw [holdCountsAfter,hl]
    exact h.1
  · intro e x he
    rw [hl] at he
    cases he
  · exact fun x hx => (h.2 x hx).2
  · exact fun x hx _ => (h.2 x hx).1

private theorem quiet_push {r : Dag × List Call} {res : Option (Dag × List Call)}
    (h : s.dag.KeepsHolds res) (hr : res = some r) (cs : List Call) :
    Quiet s (s.push (r.1,r.2 ++ cs)) := .of_eq (h r hr) rfl

private theorem quiet_map_push {res : Option (Dag × List Call)} (h : s.dag.KeepsHolds res)
    (hs : res.map s.push = some s') : Quiet s s' := by
  obtain ⟨r,hr,rfl⟩ := Option.map_eq_some_iff.mp hs
  exact .of_eq (h r hr) rfl

private theorem quiet_build {r : Option (Dag × Bool)} (h : s.dag.KeepsHolds r)
    (hs : s.build r = some s') : Quiet s s' := by
  obtain ⟨x,hx,rfl⟩ := Option.map_eq_some_iff.mp hs
  exact .of_eq (h x hx) rfl

private theorem quiet_recordSubmit {sane : Bool} (h : s.recordSubmit i p sane = some s') :
    Quiet s s' := by
  obtain ⟨r,hadv,h⟩ := Option.bind_eq_some_iff.mp h
  obtain ⟨d,hd,rfl⟩ := Option.map_eq_some_iff.mp h
  obtain ⟨hi,-,hr⟩ := advanceProc_cases hadv
  refine ⟨Dag.keepsHolds_recordSubmit _ _ _ _ d hd,fun x hx => ⟨?_,?_⟩⟩
  · refine isQueued_set (p := p) hi ?_ hx fun _ => rfl
    rw [hr]
  · refine owner_set { r.1 with procs := r.1.procs.set p .queued } hi rfl ?_ x
    rw [hr]

private theorem quiet_submitEvent (h : s.submitEvent o i p = some s') : Quiet s s' := by
  rw [submitEvent] at h
  split at h
  · cases h
  · split at h
    · cases h
    · split at h
      · exact quiet_recordSubmit h
      · split at h
        · obtain ⟨r,hr,rfl⟩ := Option.map_eq_some_iff.mp h
          exact quiet_push s.dag.keepsHolds_startFinalNode hr _
        · exact quiet_recordSubmit h

private theorem quiet_postEvent {index : Nat} (h : s.postEvent index = some s') : Quiet s s' := by
  rw [postEvent] at h
  split at h
  · cases h
  · next e he =>
    obtain ⟨node,-,h⟩ := Option.bind_eq_some_iff.mp h
    split at h
    · rw [← some.inj h]
      exact .of_eq rfl rfl
    · next n =>
      obtain ⟨r,hr,rfl⟩ := Option.map_eq_some_iff.mp h
      exact .of_eq (Dag.keepsHolds_processPostTermEvent n e.result s.dag r hr) rfl

private theorem quiet_scriptReaper {post : Bool} {n : JobID} {status : WaitStatus}
    (h : s.scriptReaper post n status = some s') : Quiet s s' := by
  rw [scriptReaper] at h
  split at h
  · rw [← some.inj h]
    refine .of_eq ?_ rfl
    show Dag.holdCounts (if post then _ else _) = _
    split
    · exact Dag.holdCounts_setScriptQ _ _ _
    · refine Dag.holdCounts_modify_trans ?_ n fun _ => rfl
      exact Dag.holdCounts_setScriptQ _ _ _
  · cases h

private theorem quiet_buildAct {action : Action} (hz : s.dag.holdCounts = .zero)
    (h : s.buildAct action = some s') :
    (Label.act action).holdEvent = none ∧ Quiet s s' := by
  cases action with
  | addNode spec =>
    refine ⟨rfl,?_⟩
    rw [← some.inj h]
    exact .of_eq ((Dag.holdCounts_addNode spec hz).trans hz.symm) rfl
  | addDependency parent child =>
    refine ⟨rfl,?_⟩
    rw [buildAct] at h
    split at h
    · exact quiet_build (Dag.keepsHolds_addDependency parent child s.dag) h
    · cases h
  | removeDependency parent child =>
    refine ⟨rfl,?_⟩
    rw [buildAct] at h
    split at h
    · exact quiet_build (Dag.keepsHolds_removeDependency parent child s.dag) h
    · cases h
  | markDone n =>
    refine ⟨rfl,?_⟩
    rw [buildAct] at h
    split at h
    · rw [← some.inj h]
      exact .of_eq (Dag.holdCounts_setStatus s.dag n .done) rfl
    · cases h
  | setThrottle | bootstrap =>
    refine ⟨rfl,?_⟩
    rw [← some.inj h]
    exact .of_eq rfl rfl
  | _ => cases h

private theorem quiet_execCall {a : Answer} {call : Call} (h : s.execCall o a call = some s') :
    Quiet s s' := by
  cases call with
  | recordSubmit i p => exact quiet_recordSubmit h
  | postScriptReaper n status =>
    obtain ⟨r,hr,rfl⟩ := Option.map_eq_some_iff.mp h
    have hd := Dag.keepsHolds_postScriptReaper a n status s.dag r hr
    dsimp only
    split <;> exact .of_eq hd rfl
  | submitLoop deferred count =>
    obtain ⟨r,hr,rfl⟩ := Option.map_eq_some_iff.mp h
    have hd := Dag.keepsHolds_submitRound o a deferred count s.dag r hr
    dsimp only
    split
    · exact .of_eq hd rfl
    · exact ⟨hd,.append rfl⟩
  | startNode | releaseChild | preScriptReaper | runWaitingScript | runAllWaitingScripts
  | checkForDagAbort | processNotIdleEvent | finalNodeStarted | bootstrapDone | bootstrapStart
  | returnDeferred =>
    simp only [execCall] at h
    exact quiet_map_push (keepsHolds_dagCall o a s.dag _) h

private theorem eventNode_eq {x : Nat × Nat} {c : Cluster} {node : Option JobID}
    (hc : s.clusters[x.1]? = some c) (hn : s.dag.findNodeByEventID c.key = some node) :
    s.eventNode x = node := by
  rw [eventNode,hc,bind_some,hn]
  rfl

private theorem holdMoves_quietEvent {event : QuietEvent} (h : s.quietEvent i p event = some s') :
    HoldMoves s (.act (.quietEvent i p event)) s' := by
  obtain ⟨r,hadv,h⟩ := Option.bind_eq_some_iff.mp h
  obtain ⟨node,hnode,hs⟩ := Option.map_eq_some_iff.mp h
  obtain ⟨hi,hp,-⟩ := advanceProc_cases hadv
  have hnode := eventNode_eq (x := (i,p)) hi hnode
  have hclusters : s'.clusters = s.clusters := by
    rw [← hs]
    cases node <;> rfl
  have hgrows := Grows.of_eq hclusters
  refine ⟨?_,?_,fun x hx => (hgrows x hx).2,fun x hx _ => (hgrows x hx).1⟩
  · cases node with
    | none =>
      have hs : s = s' := hs
      rw [← hs]
      cases event with
      | idle | notIdle => rfl
      | held =>
        show _ = s.dag.holdCounts.changeAt (s.eventNode (i,p)) 1
        rw [hnode]
        rfl
      | released =>
        show _ = s.dag.holdCounts.changeAt (s.eventNode (i,p)) (-1)
        rw [hnode]
        rfl
    | some n =>
      rw [← hs]
      cases event with
      | idle => exact Dag.holdCounts_processIsIdleEvent n s.dag
      | notIdle => exact Dag.holdCounts_processNotIdleEvent n s.dag
      | held =>
        show _ = s.dag.holdCounts.changeAt (s.eventNode (i,p)) 1
        rw [hnode]
        exact (Dag.holdCounts_processIsIdleEvent n _).trans
          (Dag.holdCounts_processHeldEvent n s.dag)
      | released =>
        show _ = s.dag.holdCounts.changeAt (s.eventNode (i,p)) (-1)
        rw [hnode]
        exact Dag.holdCounts_processReleasedEvent n s.dag
  · intro e x he
    have hx : x = (i,p) := by
      cases event with
      | idle | notIdle => cases he
      | held | released => exact (congrArg Prod.snd (some.inj he)).symm
    rw [hx]
    exact ⟨r.1,hi,hp⟩

private theorem holdMoves_endEvent {result : ProcEnd} {a : Answer}
    (h : s.endEvent o i p result a = some s') :
    HoldMoves s (.act (.endEvent i p result a)) s' := by
  obtain ⟨r,hadv,h⟩ := Option.bind_eq_some_iff.mp h
  obtain ⟨node,hnode,h⟩ := Option.bind_eq_some_iff.mp h
  obtain ⟨hi,hp,hr⟩ := advanceProc_cases hadv
  have hnode := eventNode_eq (x := (i,p)) hi hnode
  have hevent : ∃ e, (Label.act (.endEvent i p result a)).holdEvent = some (e,i,p) ∧
      e.ends = true := by
    cases result with
    | aborted | terminated => exact ⟨_,rfl,rfl⟩
  obtain ⟨e,he,hends⟩ := hevent
  have hdag : r.2.dag = s.dag := by rw [hr]
  have hclusters : s'.clusters = r.2.clusters := by
    cases node with
    | none => rw [← some.inj h]
    | some n =>
      obtain ⟨x,-,rfl⟩ := Option.map_eq_some_iff.mp h
      rfl
  rw [hr] at hclusters
  refine ⟨?_,?_,fun x _ => ?_,fun x hx hno => ?_⟩
  · cases node with
    | none =>
      rw [← some.inj h,hdag]
      cases result with
      | aborted =>
        show _ = s.dag.holdCounts.changeAt ((s.eventNode (i,p)).filter _) (-1)
        rw [hnode]
        rfl
      | terminated t => rfl
    | some n =>
      obtain ⟨x,hx,rfl⟩ := Option.map_eq_some_iff.mp h
      cases result with
      | aborted =>
        show _ = s.dag.holdCounts.changeAt ((s.eventNode (i,p)).filter _) (-1)
        rw [hnode]
        refine (Dag.holdCounts_processAbortEvent hx).trans ?_
        rw [filter_some]
        by_cases hpos : (s.dag.jobs n).jobProcsOnHold > 0
        · rw [if_pos hpos,if_pos (decide_eq_true hpos)]
          rfl
        · rw [if_neg hpos,if_neg (fun h => hpos (of_decide_eq_true h))]
          rfl
      | terminated t => exact Dag.keepsHolds_processTerminatedEvent o a n t s.dag x hx
  · intro e' x he'
    rw [he] at he'
    obtain rfl : (i,p) = x := congrArg Prod.snd (some.inj he')
    exact ⟨r.1,hi,hp⟩
  · exact owner_set { r.1 with procs := r.1.procs.set p .ended } hi rfl hclusters x
  · refine isQueued_set hi hclusters hx fun heq => ?_
    rw [heq] at hno
    exact absurd (hno e he) (by rw [hends]; exact Bool.true_eq_false.mp)

private theorem holdMoves_runAct {action : Action} (h : s.runAct o action = some s') :
    HoldMoves s (.act action) s' := by
  cases action with
  | submitReadyJobs now haltFile =>
    have hquiet : Quiet s s' := by
      rw [← some.inj h]
      exact .of_eq (Dag.holdCounts_submitReadyJobs now haltFile s.dag) rfl
    exact hquiet.holdMoves rfl
  | submitEvent i p => exact (quiet_submitEvent h).holdMoves rfl
  | endEvent i p result a => exact holdMoves_endEvent h
  | postEvent index => exact (quiet_postEvent h).holdMoves rfl
  | quietEvent i p event => exact holdMoves_quietEvent h
  | scriptReaper post n status => exact (quiet_scriptReaper h).holdMoves rfl
  | startFinalNode =>
    have hquiet : Quiet s s' := by
      rw [runAct] at h
      split at h
      · rw [← some.inj h]
        exact .of_eq rfl rfl
      · next r hr =>
        rw [← some.inj h]
        exact .of_eq (s.dag.keepsHolds_startFinalNode r hr) rfl
    exact hquiet.holdMoves rfl
  | _ => cases h

private theorem step_building (hb : s.bootstrapped = false) (hk : s.calls = [])
    (hz : s.dag.holdCounts = .zero) (h : s.step o l = some s') :
    l.holdEvent = none ∧ Quiet s s' := by
  cases l with
  | act action =>
    rw [step,if_neg (fun hne => hne hk),if_neg (by rw [hb]; exact Bool.false_ne_true)] at h
    exact quiet_buildAct hz h
  | exec a =>
    rw [step,hk] at h
    cases h

private theorem step_holdMoves (hz : s.bootstrapped = false → s.dag.holdCounts = .zero)
    (h : s.step o l = some s') : HoldMoves s l s' := by
  cases l with
  | act action =>
    rw [step] at h
    split at h
    · cases h
    · split at h
      · exact holdMoves_runAct h
      · next hb =>
        obtain ⟨hl,hquiet⟩ := quiet_buildAct (hz (Bool.eq_false_of_not_eq_true hb)) h
        exact hquiet.holdMoves hl
  | exec a =>
    rw [step] at h
    split at h
    · cases h
    · next call rest hcalls =>
      have hquiet := quiet_execCall h
      exact Quiet.holdMoves (s := s) ⟨hquiet.1,hquiet.2⟩ rfl

end System

structure Tracked where
  sys : System := {}
  held : Finset (Nat × Nat) := ∅

namespace Tracked

def step (o : Options) (t : Tracked) (l : Label) : Option Tracked :=
  (t.sys.step o l).map fun s => ⟨s,heldAfter t.held l⟩

def heldOf (t : Tracked) (n : JobID) : Finset (Nat × Nat) :=
  t.held.filter fun x => t.sys.owner x = some n

/-- The hold counts are those of the held procs, for each node and in all. -/
structure HoldsCounted (t : Tracked) : Prop where
  node : ∀ n, (t.sys.dag.jobs n).jobProcsOnHold = (t.heldOf n).card
  total : t.sys.dag.numHeldJobProcs =
    ∑ n ∈ Finset.range t.sys.dag.numNodes, (t.sys.dag.jobs n).jobProcsOnHold
  node_nonneg : ∀ n, 0 ≤ (t.sys.dag.jobs n).jobProcsOnHold
  total_nonneg : 0 ≤ t.sys.dag.numHeldJobProcs

def Fits (t : Tracked) (x : Nat × Nat) : HoldEvent → Prop
  | .held => t.sys.eventNode x = if x ∈ t.held then none else t.sys.owner x
  | .released => t.sys.eventNode x = if x ∈ t.held then t.sys.owner x else none
  | .aborted => if x ∈ t.held then t.sys.eventNode x = t.sys.owner x
    else ∀ n ∈ t.sys.eventNode x, t.heldOf n = ∅
  | .terminated => x ∉ t.held

instance (t : Tracked) (x : Nat × Nat) : ∀ e, Decidable (t.Fits x e)
  | .held => inferInstanceAs (Decidable (_ = _))
  | .released => inferInstanceAs (Decidable (_ = _))
  | .aborted => inferInstanceAs (Decidable (if x ∈ t.held then t.sys.eventNode x = t.sys.owner x
    else ∀ n ∈ t.sys.eventNode x, t.heldOf n = ∅))
  | .terminated => inferInstanceAs (Decidable (_ ∉ _))

def KeepsHoldCounts (t : Tracked) (l : Label) : Prop := ∀ e ∈ l.holdEvent, t.Fits e.2 e.1
deriving Decidable

structure Sound (t : Tracked) : Prop where
  orderly : t.sys.Orderly
  building : t.sys.bootstrapped = false → t.sys.dag.holdCounts = .zero
  live : ∀ x ∈ t.held, t.sys.IsQueued x

variable {o : Options} {t t' : Tracked} {l : Label}

private theorem sound_init : Sound {} := by
  refine ⟨System.orderly_init,fun _ => rfl,fun x hx => ?_⟩
  exact absurd hx (Finset.notMem_empty x)

variable {x : Nat × Nat}

theorem of_mem_heldAfter {held : Finset (Nat × Nat)} (h : x ∈ heldAfter held l) :
    (x ∈ held ∧ ∀ e, l.holdEvent = some (e,x) → e.ends = false) ∨
      l.holdEvent = some (.held,x) := by
  unfold heldAfter at h
  split at h
  · next hl =>
    refine .inl ⟨h,fun e he => ?_⟩
    rw [hl] at he
    cases he
  · next y hl =>
    by_cases hxy : x = y
    · exact .inr (hxy ▸ hl)
    · refine .inl ⟨Finset.mem_of_mem_insert_of_ne h hxy,fun e he => ?_⟩
      rw [hl] at he
      exact absurd (congrArg Prod.snd (some.inj he)).symm hxy
  · next e y hl =>
    refine .inl ⟨Finset.mem_of_mem_erase h,fun e' he => ?_⟩
    rw [hl] at he
    exact absurd (congrArg Prod.snd (some.inj he)).symm (Finset.ne_of_mem_erase h)

private theorem sound_step (h : Sound t) (hs : t.step o l = some t') : Sound t' := by
  obtain ⟨s,hsys,rfl⟩ := Option.map_eq_some_iff.mp hs
  have hmoves := System.step_holdMoves h.building hsys
  refine ⟨System.orderly_step h.orderly hsys,fun hb => ?_,fun x hx => ?_⟩
  · cases hb' : t.sys.bootstrapped with
    | true =>
      have hstays : s.bootstrapped = true := System.step_bootstrapped hb' hsys
      exact absurd (hb.symm.trans hstays) Bool.false_ne_true
    | false =>
      have hzero := h.building hb'
      have hbuilt := System.step_building hb' (h.orderly.building hb').1 hzero hsys
      exact hbuilt.2.1.trans hzero
  · rcases of_mem_heldAfter hx with ⟨hx,hno⟩ | hx
    · exact hmoves.live x (h.live x hx) hno
    · refine hmoves.live x (hmoves.queued _ x hx) fun e he => ?_
      rw [hx] at he
      obtain rfl : .held = e := congrArg Prod.fst (some.inj he)
      rfl

def counts (t : Tracked) : Tally JobID := Tally.ofSet t.sys.owner t.held

private theorem Sound.owner_lt (h : Sound t) (hx : x ∈ t.held) :
    ∃ n ∈ Finset.range t.sys.dag.numNodes, t.sys.owner x = some n := by
  obtain ⟨c,hc,-⟩ := h.live x hx
  refine ⟨c.node,Finset.mem_range.mpr ?_,by rw [System.owner,hc]; rfl⟩
  exact (h.orderly.begun c.node (.inr (.inr (.inl ⟨c,mem_of_getElem? hc,rfl⟩)))).1

theorem holdsCounted_iff (h : Sound t) : t.HoldsCounted ↔ t.sys.dag.holdCounts =
    t.counts := by
  have hsum : t.counts.total = ∑ n ∈ Finset.range t.sys.dag.numNodes, t.counts.part n :=
    Tally.ofSet_total t.sys.owner fun x hx => h.owner_lt hx
  constructor
  · intro hc
    apply Tally.ext
    · exact funext hc.node
    · show t.sys.dag.numHeldJobProcs = _
      rw [hc.total,hsum]
      exact Finset.sum_congr rfl fun n _ => hc.node n
  · intro hc
    have hnode (n : JobID) : (t.sys.dag.jobs n).jobProcsOnHold = (t.heldOf n).card :=
      congrFun (congrArg Tally.part hc) n
    have htotal : t.sys.dag.numHeldJobProcs = t.held.card := congrArg Tally.total hc
    refine ⟨hnode,?_,fun n => ?_,?_⟩
    · rw [htotal]
      refine Eq.trans hsum (Finset.sum_congr rfl fun n _ => ?_)
      exact (hnode n).symm
    · rw [hnode]
      exact Int.natCast_nonneg _
    · rw [htotal]
      exact Int.natCast_nonneg _

private theorem owner_of_isQueued {s : System} (h : s.IsQueued x) :
    ∃ n, s.owner x = some n := by
  obtain ⟨c,hc,-⟩ := h
  exact ⟨c.node,by rw [System.owner,hc]; rfl⟩

theorem onHold_pos_iff (hc : t.sys.dag.holdCounts = t.counts) (n : JobID) :
    (t.sys.dag.jobs n).jobProcsOnHold > 0 ↔ (t.heldOf n).Nonempty := by
  have hnode : (t.sys.dag.jobs n).jobProcsOnHold = (t.heldOf n).card :=
    congrFun (congrArg Tally.part hc) n
  rw [hnode,← Finset.card_pos]
  exact Int.natCast_pos

theorem fits_aborted_iff (hc : t.sys.dag.holdCounts = t.counts) {n : JobID}
    (hn : t.sys.owner x = some n) :
    ((t.sys.eventNode x).filter fun m => (t.sys.dag.jobs m).jobProcsOnHold > 0) =
        (if x ∈ t.held then t.sys.owner x else none) ↔ t.Fits x .aborted := by
  show _ ↔ if x ∈ t.held then t.sys.eventNode x = t.sys.owner x
    else ∀ n ∈ t.sys.eventNode x, t.heldOf n = ∅
  by_cases hx : x ∈ t.held
  · have hmem : x ∈ t.heldOf n := Finset.mem_filter.mpr ⟨hx,hn⟩
    have hpos := (onHold_pos_iff hc n).mpr ⟨x,hmem⟩
    rw [if_pos hx,if_pos hx,hn,filter_eq_some_iff]
    exact and_iff_left_of_imp fun _ => decide_eq_true hpos
  · rw [if_neg hx,if_neg hx,filter_eq_none_iff]
    apply forall_congr'
    intro m
    apply imp_congr_right
    intro _
    rw [decide_eq_true_iff,onHold_pos_iff hc m,Finset.not_nonempty_iff_eq_empty]

theorem holdCountsAfter_iff (hc : t.sys.dag.holdCounts = t.counts)
    (hq : ∀ e x, l.holdEvent = some (e,x) → t.sys.IsQueued x) :
    t.sys.holdCountsAfter l = Tally.ofSet t.sys.owner (heldAfter t.held l) ↔
      t.KeepsHoldCounts l := by
  unfold System.holdCountsAfter heldAfter KeepsHoldCounts
  cases hl : l.holdEvent with
  | none =>
    refine ⟨fun _ e he => ?_,fun _ => hc⟩
    exact absurd he.symm (some_ne_none _)
  | some e =>
    obtain ⟨e,x⟩ := e
    obtain ⟨n,hn⟩ := owner_of_isQueued (hq e x hl)
    have hfits : (∀ e' ∈ some (e,x), t.Fits e'.2 e'.1) ↔ t.Fits x e :=
      ⟨fun h => h _ rfl,fun h e' he' => some.inj he' ▸ h⟩
    rw [hfits,hc]
    cases e with
    | held =>
      dsimp only
      rw [Tally.ofSet_insert_changeAt hn]
      exact Tally.changeAt_inj _ Int.one_ne_zero
    | released =>
      dsimp only
      rw [Tally.ofSet_erase_changeAt hn]
      exact Tally.changeAt_inj _ (by omega)
    | aborted =>
      dsimp only
      rw [Tally.ofSet_erase_changeAt hn]
      exact (Tally.changeAt_inj _ (by omega)).trans (fits_aborted_iff hc hn)
    | terminated =>
      dsimp only
      rw [Tally.ofSet_erase_changeAt hn]
      refine (Tally.changeAt_inj t.counts (k := none) (by omega)).trans ?_
      by_cases hx : x ∈ t.held
      · rw [if_pos hx,hn]
        exact ⟨fun h => absurd h (some_ne_none n).symm,fun h => absurd hx h⟩
      · rw [if_neg hx]
        exact ⟨fun _ => hx,fun _ => rfl⟩

theorem holdsCounted_step_iff (h : Sound t) (hc : t.HoldsCounted)
    (hs : t.step o l = some t') :
    t'.HoldsCounted ↔ t.KeepsHoldCounts l := by
  have hc := (holdsCounted_iff h).mp hc
  have h' := sound_step h hs
  obtain ⟨s,hsys,rfl⟩ := Option.map_eq_some_iff.mp hs
  have hmoves := System.step_holdMoves h.building hsys
  rw [holdsCounted_iff h',← holdCountsAfter_iff hc hmoves.queued,← hmoves.counts]
  have hsame : (⟨s,heldAfter t.held l⟩ : Tracked).counts =
      Tally.ofSet t.sys.owner (heldAfter t.held l) := by
    apply Tally.ofSet_congr
    intro x hx
    rcases of_mem_heldAfter hx with ⟨hx,-⟩ | hx
    · exact hmoves.owner x (h.live x hx)
    · exact hmoves.owner x (hmoves.queued _ x hx)
  rw [hsame]

private theorem holdsCounted_init : HoldsCounted {} := (holdsCounted_iff sound_init).mpr rfl

private theorem run_eq (o : Options) (t : Tracked) (log : List Label) :
    run (step o) t log =
      (run (System.step o) t.sys log).map fun s => ⟨s,log.foldl heldAfter t.held⟩ := by
  induction log generalizing t with
  | nil => rfl
  | cons l log ih =>
    rw [run,run,step]
    cases t.sys.step o l with
    | none => rfl
    | some s => exact ih ⟨s,heldAfter t.held l⟩

/-- The counts of the procs on hold are right in every state of a run exactly if every event of the
run fits. -/
theorem heldCounts_of_run {log : List Label} {s : System}
    (hrun : run (System.step o) {} log = some s) :
    Along (step o) KeepsHoldCounts {} log ↔
      ∀ k s', run (System.step o) {} (log.take k) = some s' →
        HoldsCounted ⟨s',heldProcs (log.take k)⟩ := by
  have hrun' : run (step o) {} log = some ⟨s,heldProcs log⟩ := by
    rw [run_eq,hrun]
    rfl
  have hsound (t : Tracked) (l : Label) (t' : Tracked) (h : Sound t)
      (hs : t.step o l = some t') : Sound t' := sound_step h hs
  have hstep (t : Tracked) (l : Label) (t' : Tracked) (h : Sound t) (hc : t.HoldsCounted)
      (hs : t.step o l = some t') : t'.HoldsCounted ↔ t.KeepsHoldCounts l :=
    holdsCounted_step_iff h hc hs
  rw [along_iff_prefixes hsound hstep sound_init holdsCounted_init hrun']
  constructor
  · intro hall k s' hs
    apply hall k
    rw [run_eq,hs]
    rfl
  · intro hall k t ht
    rw [run_eq] at ht
    obtain ⟨s',hs,rfl⟩ := Option.map_eq_some_iff.mp ht
    exact hall k s' hs

/-- Two procs on hold, one released and the other removed: each event fits. -/
theorem heldCounts_of_run_removed :
    let log : List Label := [.act (.addNode {}),.act .bootstrap,.exec {},.exec {},.exec {},
      .act (.submitReadyJobs 0 false),.exec { submitted := some (.condor 1,2) },.exec {},.exec {},
      .act (.submitEvent 0 0),.act (.submitEvent 0 1),.act (.submitEvent 0 2),
      .act (.quietEvent 0 0 .held),.act (.quietEvent 0 1 .held),.act (.quietEvent 0 0 .released),
      .act (.endEvent 0 0 (.terminated (.exited 0)) {}),.exec {},.act (.quietEvent 0 2 .held),
      .act (.endEvent 0 1 .aborted {})]
    ∃ s, run (System.step {}) {} log = some s ∧ s.dag.numHeldJobProcs = 1 ∧
      heldProcs log = {(0,2)} ∧ HoldsCounted ⟨s,heldProcs log⟩ := by
  intro log
  obtain ⟨s,hrun,hs⟩ := run_exists (System.step {}) {} log
    (fun s => decide (s.dag.numHeldJobProcs = 1)) (by decide)
  have hok : Along (step {}) KeepsHoldCounts {} log := by decide
  have hall := (heldCounts_of_run hrun).mp hok log.length s
  rw [take_length] at hall
  exact ⟨s,hrun,of_decide_eq_true hs,by decide,hall hrun⟩

/-- A proc that terminates while on hold is still counted, and the abort of one that is not takes
its sibling off the count. -/
theorem heldCounts_drift :
    let start : List Label := [.act (.addNode {}),.act .bootstrap,.exec {},.exec {},.exec {},
      .act (.submitReadyJobs 0 false),.exec { submitted := some (.condor 1,1) },.exec {},.exec {},
      .act (.submitEvent 0 0),.act (.submitEvent 0 1),.act (.quietEvent 0 0 .held)]
    (∃ s, run (System.step {}) {}
        (start ++ [.act (.endEvent 0 0 (.terminated (.exited 0)) {})]) = some s ∧
      heldProcs (start ++ [.act (.endEvent 0 0 (.terminated (.exited 0)) {})]) = ∅ ∧
      s.dag.numHeldJobProcs = 1 ∧ (s.dag.jobs 0).jobProcsOnHold = 1 ∧
      ¬ HoldsCounted ⟨s,∅⟩) ∧
    ∃ s, run (System.step {}) {} (start ++ [.act (.endEvent 0 1 .aborted {}),.exec {},
        .act (.quietEvent 0 0 .released)]) = some s ∧
      s.dag.numHeldJobProcs = -1 ∧ (s.dag.jobs 0).jobProcsOnHold = -1 := by
  intro start
  obtain ⟨s,hrun,hs⟩ := run_exists (System.step {}) {}
    (start ++ [.act (.endEvent 0 0 (.terminated (.exited 0)) {})])
    (fun s => decide (s.dag.numHeldJobProcs = 1 ∧ (s.dag.jobs 0).jobProcsOnHold = 1))
    (by decide)
  obtain ⟨s',hrun',hs'⟩ := run_exists (System.step {}) {}
    (start ++ [.act (.endEvent 0 1 .aborted {}),.exec {},.act (.quietEvent 0 0 .released)])
    (fun s => decide (s.dag.numHeldJobProcs = -1 ∧ (s.dag.jobs 0).jobProcsOnHold = -1))
    (by decide)
  obtain ⟨htotal,hnode⟩ := of_decide_eq_true hs
  refine ⟨⟨s,hrun,by decide,htotal,hnode,fun hc => ?_⟩,s',hrun',of_decide_eq_true hs'⟩
  have hzero : (s.dag.jobs 0).jobProcsOnHold = 0 := hc.node 0
  rw [hzero] at hnode
  exact absurd hnode Int.zero_ne_one

end Tracked

end Condor.Dagman
