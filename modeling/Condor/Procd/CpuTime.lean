import Condor.Procd.Consistency

/-!
# Processor times and signals

What is reported of a family does not go down while it is registered, whatever exits, moves or is
unregistered in between, and a signal to it reaches exactly its processes.
-/

namespace Condor.Procd.World

open Condor.Lib Monitor List Option

variable {w : World} {F : Forest Nat} {L : Nat → List Nat} {root : ProcFamily}
  {e : List ProcInfo × Operation}

/-- The times of a process that is in both listings have not gone back. -/
def Advances (old new : List ProcInfo) : Prop :=
  ∀ p ∈ live old, ∀ q ∈ live new, q.pid = p.pid → q.birthday = p.birthday →
    p.userTime ≤ q.userTime ∧ p.sysTime ≤ q.sysTime
deriving Decidable

/-- Only snapshots, registrations and the like, with times that do not go back. -/
def Plain (w : World) (e : List ProcInfo × Operation) : Prop :=
  e.2.tracks = false ∧ (e.2.takesSnapshot = true → Listing e.1 ∧ Advances w.last e.1)
deriving Decidable

theorem Good.forward (h : Good w F L) (he : Plain w e) :
    Forward w.monitor (live (if e.2.takesSnapshot then e.1 else w.last)) := by
  split
  · rename_i hop
    intro x c pi hc hpi hp hb k
    have hadv := (he.2 hop).2 c.procInfo (h.complete.listed x c hc) pi hpi hp hb
    cases k with
    | user => exact hadv.1
    | sys => exact hadv.2
    | procs => exact Nat.le_refl 1
  · exact h.complete.forward h.listing

private theorem Good.perform_none (h : Good w F L) (hr : Rooted root w.monitor)
    (hop : e.2.takesSnapshot = true) (hps : Listing e.1) (hw : watched e.1 root = false) :
    w.perform e = none := by
  have hsnap : w.monitor.snapshot e.1 = none := by
    rw [← snapshot_live]
    apply h.shape.snapshot_none h.complete.unmarked h.tracked hps (live_pid e.1)
    rw [funext (watched_live e.1),hr.watched,hw]
  obtain ⟨ps,op⟩ := e
  cases op with
  | snapshot => simp only [World.perform,Monitor.apply,hsnap,map_none]
  | registerSubfamily rootPid watcherPid interval =>
    simp only [Operation.takesSnapshot,Bool.and_eq_true,decide_eq_true_eq] at hop
    simp only [World.perform,Monitor.apply,Monitor.registerSubfamily,if_neg (not_le.mpr hop.1.1),
      if_neg (not_lt.mpr hop.1.2),if_neg (not_lt.mpr hop.2),hsnap,bind_eq_bind,
      bind_none,map_none]
  | signalFamily pid =>
    simp only [World.perform,Monitor.apply,Monitor.signalFamily,hsnap,bind_eq_bind,
      bind_none,map_none]
  | _ => simp [Operation.takesSnapshot] at hop

structure Calm (root : ProcFamily) (w : World) (F : Forest Nat) (L : Nat → List Nat) : Prop where
  good : Good w F L
  rooted : Rooted root w.monitor
  empty : ∀ t, t ≠ .pid → w.monitor.pointers t = []

theorem Calm.clean (h : Calm root w F L) : Clean w e := by
  intro t ht g hg
  have htp : t ≠ .pid := by
    rintro rfl
    simp at ht
  rw [h.empty t htp] at hg
  simp at hg

theorem Calm.perform (h : Calm root w F L) (he : Plain w e)
    (hw : e.2.takesSnapshot = true → watched e.1 root = true) :
    ∃ w' F' L', w.perform e = some w' ∧ Calm root w' F' L' ∧
      Stepped (live (if e.2.takesSnapshot then e.1 else w.last)) w.monitor F L w'.monitor F'
        L' := by
  obtain ⟨m',F',L',hrun,hs,ht⟩ := h.good.step he.1 (fun hop => (he.2 hop).1)
    fun hop => by rw [h.rooted.watched,hw hop]
  refine ⟨⟨m',if e.2.takesSnapshot then e.1 else w.last⟩,F',L',by simp [World.perform,hrun],
    ⟨⟨hs.shape,hs.complete,ht h.clean,?_⟩,h.rooted.stepped h.good.shape.tree hs,?_⟩,hs⟩
  · show Listing (if e.2.takesSnapshot then e.1 else w.last)
    split
    · rename_i hop
      exact (he.2 hop).1
    · exact h.good.listing
  · intro t htp
    apply List.subset_nil.mp
    rw [← h.empty t htp]
    exact hs.pointers t htp

private theorem Calm.perform_eq_none (h : Calm root w F L) (he : Plain w e) :
    w.perform e = none ↔ e.2.takesSnapshot = true ∧ watched e.1 root = false := by
  constructor
  · intro hnone
    by_contra hnot
    obtain ⟨w',F',L',hrun,-⟩ := h.perform he fun hop => by
      cases hw : watched e.1 root with
      | true => rfl
      | false => exact absurd ⟨hop,hw⟩ hnot
    rw [hrun] at hnone
    simp at hnone
  · intro ⟨hop,hw⟩
    exact h.good.perform_none h.rooted hop (he.2 hop).1 hw

theorem Calm.step {w' : World} (h : Calm root w F L) (he : Plain w e) (hp : w.perform e = some w') :
    ∃ F' L', Calm root w' F' L' ∧
      Stepped (live (if e.2.takesSnapshot then e.1 else w.last)) w.monitor F L w'.monitor F'
        L' := by
  have hw : e.2.takesSnapshot = true → watched e.1 root = true := by
    intro hop
    cases hw : watched e.1 root with
    | true => rfl
    | false =>
      rw [(h.perform_eq_none he).mpr ⟨hop,hw⟩] at hp
      simp at hp
  obtain ⟨w1,F',L',hrun,hcalm,hs⟩ := h.perform he hw
  obtain rfl : w1 = w' := some.inj (hrun.symm.trans hp)
  exact ⟨F',L',hcalm,hs⟩

variable {ps : List ProcInfo}

private theorem start_calm {pid : Pid} {birthday : Nat} {ex : Bool}
    {group : Option (BitVec 32 × Nat × Bool)} (hpid : pid ≠ 0) (hps : Listing ps)
    (hstart : start pid birthday ex group ps = some w) :
    ∃ F L, Calm (rootFamily pid birthday ex) w F L := by
  cases hw : watched ps (rootFamily pid birthday ex) with
  | true =>
    obtain ⟨w0,F,L,hrun,-,hg,hr,hempty⟩ := start_good group hpid hps hw
    obtain rfl : w0 = w := some.inj (hrun.symm.trans hstart)
    exact ⟨F,L,hg,hr,hempty⟩
  | false =>
    have hnone : (blank pid birthday ex).snapshot ps = none := by
      have hblank := good_blank hpid birthday ex
      rw [← snapshot_live]
      apply hblank.shape.snapshot_none hblank.complete.unmarked hblank.tracked hps (live_pid ps)
      rw [funext (watched_live ps),show (blank pid birthday ex).tree = 1 from rfl,blank_families,
        if_pos rfl,map_some,hw]
    have hcons : construct pid birthday ex ps = none := hnone
    simp [start,hcons] at hstart

private theorem usage_stepped {m m' : Monitor} {F' : Forest Nat} {L' : Nat → List Nat}
    (h : Shape m F L) (hs : Stepped ps m F L m' F' L') (hfw : Forward m ps) {pid : Pid} {g : Nat}
    (hl : m.lookupFamily pid true = some g) (hex : m'.families g ≠ none) :
    ∃ u u', m.getFamilyUsage pid = some (u,.success) ∧ m'.getFamilyUsage pid = some (u',.success) ∧
      u.userCpuTime ≤ u'.userCpuTime ∧ u.sysCpuTime ≤ u'.sysCpuTime := by
  have hg := h.tree.lookup_mem hl
  obtain ⟨hg',hl'⟩ := hs.lookup h.tree hg hl hex
  refine ⟨_,_,h.getFamilyUsage hl,hs.shape.getFamilyUsage hl',?_,?_⟩
  · exact hs.total hfw .user g (by simp) hg hg'
  · exact hs.total hfw .sys g (by simp) hg hg'

private theorem usage_unregistered {m m' : Monitor} (h : Shape m F L)
    (hc : Complete ps m) {pid p : Pid} (hrun : m.unregisterSubfamily pid = some (m',.success))
    (hne : p ≠ pid) : m'.getFamilyUsage p = m.getFamilyUsage p := by
  rcases h.unregisterSubfamily hc pid with ⟨err,hrun',herr⟩ |
    ⟨m1,g,q,hrun',htab,hg,hgt,hpar,hun,hs⟩
  · rw [hrun'] at hrun
    exact absurd (Prod.mk.inj (some.inj hrun)).2 herr
  · obtain rfl : m1 = m' := (Prod.mk.inj (some.inj (hrun'.symm.trans hrun))).1
    have hnd := h.tree.nodup
    cases hl : m.lookupFamily p true with
    | some z =>
      have hz := h.tree.lookup_mem hl
      have hzg : z ≠ g := by
        rintro rfl
        unfold lookupFamily at hl
        split at hl
        · exact hgt (some.inj hl).symm
        · have h1 := ((h.tree.table p z).mp hl).2
          have h2 := ((h.tree.table pid z).mp htab).2
          exact hne (some.inj (h1.symm.trans h2))
      have hz' : z ∈ (F.erase g).ids := (mem_erase_ids hnd).mpr ⟨hzg,hz⟩
      obtain ⟨fam,hfam⟩ := hun.shape.tree.exists_family hz'
      obtain ⟨-,hl'⟩ := hs.lookup h.tree hz hl (by simp [hfam])
      rw [h.getFamilyUsage hl,hun.shape.getFamilyUsage hl']
      have htotal := fun k => hun.total h hpar k hz hzg
      unfold Monitor.total at htotal
      simp only [usageOf,htotal]
    | none =>
      have hnone : m1.lookupFamily p true = none := by
        cases hl' : m1.lookupFamily p true with
        | none => rfl
        | some z =>
          unfold lookupFamily at hl hl'
          split at hl
          · simp at hl
          · rename_i hp
            rw [if_neg hp] at hl'
            obtain ⟨hz',hkey⟩ := (hun.shape.tree.table p z).mp hl'
            have hz := ((mem_erase_ids hnd).mp hz').2
            have hkeys := congrArg (Option.map Prod.fst) (hs.keys z hz hz')
            rw [Option.map_map,Option.map_map] at hkeys
            rw [(h.tree.table p z).mpr ⟨hz,hkeys.symm.trans hkey⟩] at hl
            simp at hl
      simp [Monitor.getFamilyUsage,hl,hnone]

/-- The next request is answered unless the watcher of the root is gone, what is reported of a
family does not go down, and to unregister one is not noticed by the others. -/
theorem cpu_time_kept (pid : Pid) (birthday : Nat) (exceptIfPidDies : Bool)
    (group : Option (BitVec 32 × Nat × Bool)) (ps : List ProcInfo)
    (ops : List (List ProcInfo × Operation)) (w0 w : World) (hpid : pid ≠ 0) (hps : Listing ps)
    (hstart : start pid birthday exceptIfPidDies group ps = some w0)
    (hok : Along perform Plain w0 ops) (hrun : run perform w0 ops = some w) :
    (∀ e, Plain w e →
      (w.perform e = none ↔ e.2.takesSnapshot = true ∧
        watched e.1 (rootFamily pid birthday exceptIfPidDies) = false) ∧
      ∀ w', w.perform e = some w' → ∀ p g, w.monitor.lookupFamily p true = some g →
        w'.monitor.families g ≠ none →
        ∃ u u', w.monitor.getFamilyUsage p = some (u,.success) ∧
          w'.monitor.getFamilyUsage p = some (u',.success) ∧
          u.userCpuTime ≤ u'.userCpuTime ∧ u.sysCpuTime ≤ u'.sysCpuTime) ∧
    ∀ q m', w.monitor.unregisterSubfamily q = some (m',.success) →
      ∀ p, p ≠ q → m'.getFamilyUsage p = w.monitor.getFamilyUsage p := by
  have hstep : ∀ w e w', (∃ F L, Calm (rootFamily pid birthday exceptIfPidDies) w F L) →
      Plain w e → w.perform e = some w' →
      ∃ F L, Calm (rootFamily pid birthday exceptIfPidDies) w' F L := by
    intro w e w' ⟨F,L,hc⟩ he hp
    obtain ⟨F',L',hc',-⟩ := hc.step he hp
    exact ⟨F',L',hc'⟩
  obtain ⟨F,L,hc⟩ := run_invariant hstep hok (start_calm hpid hps hstart) hrun
  refine ⟨fun e he => ⟨hc.perform_eq_none he,?_⟩,?_⟩
  · intro w' hp p g hl hex
    obtain ⟨F',L',-,hs⟩ := hc.step he hp
    exact usage_stepped hc.good.shape hs (hc.good.forward he) hl hex
  · intro q m' hq p hne
    exact usage_unregistered hc.good.shape hc.good.complete hq hne

/-- The root process of a subfamily exits, and another one of the family goes on. -/
theorem cpu_time_kept_sample :
    ∃ w0 w w', start 10 5 true none [⟨10,1,5,0,0,0,[],[]⟩,⟨11,10,6,3,0,0,[],[]⟩] = some w0 ∧
      run perform w0
        [([⟨10,1,5,1,0,0,[],[]⟩,⟨11,10,6,4,1,0,[],[]⟩],.registerSubfamily 11 10 (-1)),
          ([⟨10,1,5,1,0,0,[],[]⟩,⟨11,10,6,5,1,0,[],[]⟩,⟨12,11,8,1,0,0,[],[]⟩],.snapshot)] = some w ∧
      w.perform ([⟨10,1,5,2,0,0,[],[]⟩,⟨12,1,8,2,0,0,[],[]⟩],.snapshot) = some w' ∧
      ∃ u u', w.monitor.getFamilyUsage 11 = some (u,.success) ∧
        w'.monitor.getFamilyUsage 11 = some (u',.success) ∧
        u.userCpuTime ≤ u'.userCpuTime ∧ u.sysCpuTime ≤ u'.sysCpuTime := by
  have hall : ((start 10 5 true none [⟨10,1,5,0,0,0,[],[]⟩,⟨11,10,6,3,0,0,[],[]⟩]).bind fun w0 =>
      (run perform w0
        [([⟨10,1,5,1,0,0,[],[]⟩,⟨11,10,6,4,1,0,[],[]⟩],.registerSubfamily 11 10 (-1)),
          ([⟨10,1,5,1,0,0,[],[]⟩,⟨11,10,6,5,1,0,[],[]⟩,⟨12,11,8,1,0,0,[],[]⟩],
            .snapshot)]).bind fun w =>
      (w.perform ([⟨10,1,5,2,0,0,[],[]⟩,⟨12,1,8,2,0,0,[],[]⟩],.snapshot)).map fun w' =>
      decide (Along perform Plain w0
        [([⟨10,1,5,1,0,0,[],[]⟩,⟨11,10,6,4,1,0,[],[]⟩],.registerSubfamily 11 10 (-1)),
          ([⟨10,1,5,1,0,0,[],[]⟩,⟨11,10,6,5,1,0,[],[]⟩,⟨12,11,8,1,0,0,[],[]⟩],.snapshot)] ∧
        Plain w ([⟨10,1,5,2,0,0,[],[]⟩,⟨12,1,8,2,0,0,[],[]⟩],.snapshot) ∧
        w.monitor.lookupFamily 11 true = some 2 ∧ w'.monitor.families 2 ≠ none)) = some true := by
    decide
  obtain ⟨w0,hstart,hall⟩ := Option.bind_eq_some_iff.mp hall
  obtain ⟨w,hrun,hall⟩ := Option.bind_eq_some_iff.mp hall
  obtain ⟨w',hperf,hall⟩ := Option.map_eq_some_iff.mp hall
  obtain ⟨hok,he,hl,hex⟩ := of_decide_eq_true hall
  refine ⟨w0,w,w',hstart,hrun,hperf,?_⟩
  exact ((cpu_time_kept 10 5 true none _ _ w0 w (by decide) (by decide) hstart hok hrun).1 _ he).2
    w' hperf 11 2 hl hex

/-- Each process of the family and of those below it is sent the signal once, and no other is. -/
theorem signal_reaches (pid : Pid) (birthday : Nat) (ex : Bool)
    (group : Option (BitVec 32 × Nat × Bool)) (ps now : List ProcInfo)
    (ops : List (List ProcInfo × Operation)) (w0 w : World) (q : Pid) (m : Monitor)
    (pids : List Pid) (hpid : pid ≠ 0) (hps : Listing ps)
    (hstart : start pid birthday ex group ps = some w0)
    (hok : Along perform Plain w0 ops) (hrun : run perform w0 ops = some w)
    (he : Plain w (now,.signalFamily q))
    (hsent : w.monitor.signalFamily now q = some (m,.success,pids)) :
    pids.Nodup ∧ ∃ F L g, Shape m F L ∧ m.lookupFamily q true = some g ∧ ∀ p, p ∈ pids ↔
      ∃ pi ∈ live now, pi.pid = p ∧ ∃ x c, m.members x = some c ∧ c.procInfo = pi ∧
        c.family ∈ covered F g := by
  have hstep : ∀ w e w', (∃ F L, Calm (rootFamily pid birthday ex) w F L) →
      Plain w e → w.perform e = some w' →
      ∃ F L, Calm (rootFamily pid birthday ex) w' F L := by
    rintro w e w' ⟨F,L,hc⟩ he hp
    obtain ⟨F',L',hc',-⟩ := hc.step he hp
    exact ⟨F',L',hc'⟩
  obtain ⟨F0,L0,hc⟩ := run_invariant hstep hok (start_calm hpid hps hstart) hrun
  have hp : w.perform (now,.signalFamily q) = some ⟨m,now⟩ := by
    simp [World.perform,Monitor.apply,hsent,Operation.takesSnapshot]
  obtain ⟨F,L,⟨⟨hs,hall,-,-⟩,-,-⟩,-⟩ := hc.step he hp
  rw [Monitor.signalFamily,bind_eq_bind,bind_eq_some_iff] at hsent
  obtain ⟨m',-,hsent⟩ := hsent
  cases hl : m'.lookupFamily q true with
  | none => simp [hl] at hsent
  | some g =>
    simp only [hl,bind_eq_bind,bind_eq_some_iff,Option.some.injEq,Prod.mk.injEq,
      true_and] at hsent
    obtain ⟨sent,hnode,rfl,rfl⟩ := hsent
    rw [hs.signalNode (hs.tree.lookup_mem hl),Option.some.injEq] at hnode
    have hpids : ((covered F g).flatMap L).filterMap
        (fun x => (m'.members x).map fun c => c.procInfo.pid) = sent := by
      rw [← hnode,filterMap_flatMap]
      simp only [membersOf,map_filterMap]
    rw [← hpids]
    refine ⟨.filterMap ?_ (List.nodup_flatMap.mpr ⟨fun z _ => hs.members.nodup z,?_⟩),
      F,L,g,hs,hl,fun p => ?_⟩
    · intro x y p hx hy
      obtain ⟨c,hc,rfl⟩ := Option.map_eq_some_iff.mp hx
      obtain ⟨d,hd,hp⟩ := Option.map_eq_some_iff.mp hy
      exact hs.members.pid_injective hc hd hp.symm
    · refine (covered_nodup hs.tree.nodup g).imp fun hne => ?_
      exact List.disjoint_left.mpr fun x hx hy => hne (hs.members.disjoint hx hy)
    · simp only [mem_filterMap,mem_flatMap,hs.members.mem,map_eq_some_iff]
      constructor
      · rintro ⟨x,⟨z,hz,c,hc,rfl⟩,d,hd,rfl⟩
        obtain rfl : c = d := some.inj (hc.symm.trans hd)
        exact ⟨_,hall.listed x c hc,rfl,x,c,hc,rfl,hz⟩
      · rintro ⟨pi,-,rfl,x,c,hc,rfl,hz⟩
        exact ⟨x,⟨_,hz,c,hc,rfl⟩,c,hc,rfl⟩

theorem signal_reaches_sample : ∃ m F L g, Shape m F L ∧ m.lookupFamily 10 true = some g ∧
    [(11 : Pid),10].Nodup := by
  let ps : List ProcInfo := [⟨10,1,5,0,0,0,[],[]⟩,⟨11,10,6,3,0,0,[],[]⟩]
  have hall : ((start 10 5 true none ps).bind fun w => (w.monitor.signalFamily ps 10).map fun r =>
      decide (Plain w (ps,.signalFamily 10) ∧ r.2 = (.success,[11,10]))) = some true := by
    decide
  obtain ⟨w,hstart,hall⟩ := Option.bind_eq_some_iff.mp hall
  obtain ⟨⟨m,r⟩,hsent,hall⟩ := Option.map_eq_some_iff.mp hall
  obtain ⟨he,rfl⟩ := of_decide_eq_true hall
  obtain ⟨hnd,F,L,g,hs,hl,-⟩ := signal_reaches 10 5 true none ps ps [] w w 10 m _ (by decide)
    (by decide) hstart trivial rfl he hsent
  exact ⟨m,F,L,g,hs,hl,hnd⟩

end Condor.Procd.World
