import Condor.Procd.Usage

/-!
# The requests to the daemon

Each request is answered with the processes that are on the system at that time, which the request
may or may not look at.
-/

namespace Condor.Procd

open Condor.Lib Monitor List

inductive Operation
  | snapshot
  | registerSubfamily (rootPid watcherPid : Pid) (maxSnapshotInterval : Int)
  | unregisterSubfamily (pid : Pid)
  | trackFamilyViaEnvironment (pid : Pid) (penvid : List String)
  | trackFamilyViaLogin (pid : Pid) (uid : Nat)
  | trackFamilyViaSupplementaryGroup (pid : Pid) (gid : BitVec 32)
  | signalFamily (pid : Pid)
  | getFamilyUsage (pid : Pid)

namespace Operation

def takesSnapshot : Operation → Bool
  | .snapshot => true
  | .registerSubfamily rootPid watcherPid maxSnapshotInterval =>
    0 < rootPid && 0 ≤ watcherPid && -1 ≤ maxSnapshotInterval
  | .signalFamily _ => true
  | _ => false

def tracks : Operation → Bool
  | .trackFamilyViaEnvironment _ _ => true
  | .trackFamilyViaLogin _ _ => true
  | .trackFamilyViaSupplementaryGroup _ _ => true
  | _ => false

def unregisters (m : Monitor) (ps : List ProcInfo) (g : Nat) : Operation → Bool
  | .unregisterSubfamily pid => m.familyTable pid = some g && g ≠ m.tree
  | op => op.takesSnapshot && (m.families g).map (watched ps) = some false

end Operation

def Monitor.apply (m : Monitor) (piList : List ProcInfo) : Operation → Option Monitor
  | .snapshot => m.snapshot piList
  | .registerSubfamily rootPid watcherPid maxSnapshotInterval =>
    (m.registerSubfamily piList rootPid watcherPid maxSnapshotInterval).map Prod.fst
  | .unregisterSubfamily pid => (m.unregisterSubfamily pid).map Prod.fst
  | .trackFamilyViaEnvironment pid penvid => some (m.trackFamilyViaEnvironment pid penvid).1
  | .trackFamilyViaLogin pid uid => some (m.trackFamilyViaLogin pid uid).1
  | .trackFamilyViaSupplementaryGroup pid gid => some (m.trackFamilyViaSupplementaryGroup pid gid).1
  | .signalFamily pid => (m.signalFamily piList pid).map Prod.fst
  | .getFamilyUsage pid => (m.getFamilyUsage pid).map fun _ => m

structure World where
  monitor : Monitor
  last : List ProcInfo

namespace World

def perform (w : World) (e : List ProcInfo × Operation) : Option World :=
  (w.monitor.apply e.1 e.2).map fun m => ⟨m,if e.2.takesSnapshot then e.1 else w.last⟩

def start (pid : Pid) (birthday : Nat) (exceptIfPidDies : Bool)
    (group : Option (BitVec 32 × Nat × Bool)) (piList : List ProcInfo) : Option World :=
  (construct pid birthday exceptIfPidDies piList).map fun m =>
    ⟨match group with
      | none => m
      | some (min,size,allocating) => m.enableGroupTracking min size allocating,piList⟩

def Clean (w : World) (e : List ProcInfo × Operation) : Prop :=
  ∀ t ∈ [Tracker.login,.environment,.group], ∀ g ∈ w.monitor.pointers t,
    e.2.unregisters w.monitor e.1 g = true → (w.monitor.pointers t).count g ≤ 1
deriving Decidable

end World

def live (ps : List ProcInfo) : List ProcInfo := ps.filter fun pi => pi.pid ≠ 0

def Listing (ps : List ProcInfo) : Prop := ((live ps).map ProcInfo.pid).Nodup
deriving Decidable

namespace Monitor

variable {m m' : Monitor} {F F' : Forest Nat} {L L' : Nat → List Nat} {ps : List ProcInfo}

theorem live_pid (ps : List ProcInfo) : ∀ pi ∈ live ps, pi.pid ≠ 0 := by
  intro pi hpi
  simpa using (List.mem_filter.mp hpi).2

private theorem markAlive_live (m : Monitor) (ps : List ProcInfo) : m.markAlive
    (live ps) = m.markAlive ps := by
  induction ps generalizing m with
  | nil => rfl
  | cons pi ps ih =>
    by_cases hp : pi.pid = 0
    · have hlive : live (pi :: ps) = live ps := by simp [live,hp]
      rw [hlive,ih,markAlive,if_pos hp]
    · have hlive : live (pi :: ps) = pi :: live ps := by simp [live,hp]
      rw [hlive,markAlive,markAlive,if_neg hp,if_neg hp]
      simp only [ih]

theorem snapshot_live (m : Monitor) (ps : List ProcInfo) : m.snapshot
    (live ps) = m.snapshot ps := by
  unfold snapshot
  rw [markAlive_live]

theorem watched_live (ps : List ProcInfo) (fam : ProcFamily) : watched
    (live ps) fam = watched ps fam := by
  by_cases hw : fam.watcherPid = 0
  · simp [watched,hw]
  · unfold watched live
    rw [any_filter]
    congr 2
    funext pi
    by_cases hp : pi.pid = fam.watcherPid
    · simp [hp,hw]
    · simp [hp]

theorem Stepped.rfl (h : Shape m F L) (hc : Complete ps m) : Stepped ps m F L m F L where
  shape := h
  complete := hc
  tree := Eq.refl _
  everybodyElse := Eq.refl _
  nextFamily := Nat.le_refl _
  fresh _ hz := .inl hz
  keys _ _ _ := Eq.refl _
  total _ _ _ _ _ _ := Nat.le_refl _
  pointers _ _ := List.Subset.refl _

theorem Shape.registerSubfamily (h : Shape m F L) {rootPid watcherPid : Pid} {interval : Int}
    (hop : (Operation.registerSubfamily rootPid watcherPid interval).takesSnapshot = true)
    {m1 : Monitor} {F1 : Forest Nat} {L1 : Nat → List Nat} (hrun : m.snapshot ps = some m1)
    (hnd : ((live ps).map ProcInfo.pid).Nodup) (hs : Stepped (live ps) m F L m1 F1 L1) :
    ∃ m' e F' L', m.registerSubfamily ps rootPid watcherPid interval = some (m',e) ∧
      Stepped (live ps) m F L m' F' L' ∧ (Tracked m1 F1 → Tracked m' F') := by
  simp only [Operation.takesSnapshot,Bool.and_eq_true,decide_eq_true_eq] at hop
  have hargs : ¬rootPid ≤ 0 ∧ ¬watcherPid < 0 ∧ ¬interval < -1 :=
    ⟨not_le.mpr hop.1.1,not_lt.mpr hop.1.2,not_lt.mpr hop.2⟩
  simp only [Monitor.registerSubfamily,if_neg hargs.1,if_neg hargs.2.1,if_neg hargs.2.2,hrun,
    Option.bind_eq_bind,Option.bind_some]
  cases ht : m1.memberTable rootPid with
  | none => exact ⟨m1,.processNotFamily,F1,L1,rfl,hs,id⟩
  | some x =>
    obtain ⟨c,hc,-⟩ := (hs.shape.members.table _ _).mp ht
    by_cases hce : c.family = m1.everybodyElse
    · exact ⟨m1,.processNotFamily,F1,L1,by simp [hc,hce],hs,id⟩
    · cases hl : m1.lookupFamily rootPid false with
      | some g => exact ⟨m1,.alreadyRegistered,F1,L1,by simp [hc,hce],hs,id⟩
      | none =>
        obtain ⟨m2,F2,L2,hrun2,hs2,htr⟩ := hs.shape.createFamily hs.complete rootPid
          watcherPid hc hce (by simpa [lookupFamily] using hl) (ne_of_gt hop.1.1)
        exact ⟨m2,.success,F2,L2,by simp [hc,hce,hrun2],hs.trans h.tree hnd hs2,htr⟩

private theorem registerSubfamily_refused (m : Monitor) (ps : List ProcInfo)
    {rootPid watcherPid : Pid}
    {interval : Int}
    (hop : (Operation.registerSubfamily rootPid watcherPid interval).takesSnapshot = false) :
    ∃ e, m.registerSubfamily ps rootPid watcherPid interval = some (m,e) := by
  unfold Monitor.registerSubfamily
  simp only [Operation.takesSnapshot,Bool.and_eq_false_iff,decide_eq_false_iff_not] at hop
  by_cases h1 : rootPid ≤ 0
  · exact ⟨_,if_pos h1⟩
  · by_cases h2 : watcherPid < 0
    · exact ⟨_,by rw [if_neg h1,if_pos h2]⟩
    · have h3 : interval < -1 := by
        rcases hop with (hop | hop) | hop
        · exact absurd (not_le.mp h1) hop
        · exact absurd (not_lt.mp h2) hop
        · exact not_le.mp hop
      exact ⟨_,by rw [if_neg h1,if_neg h2,if_pos h3]⟩

theorem Shape.unregisterSubfamily (h : Shape m F L) (hc : Complete ps m) (pid : Pid) :
    (∃ e, m.unregisterSubfamily pid = some (m,e) ∧ e ≠ .success) ∨
      ∃ m' g p, m.unregisterSubfamily pid = some (m',.success) ∧ m.familyTable pid = some g ∧
        g ∈ F.ids ∧ g ≠ m.tree ∧ m.links.parent g = some p ∧ Unregistered m m' F L g p ∧
        Stepped ps m F L m' (F.erase g) (foldedLists L g p) := by
  cases hl : m.familyTable pid with
  | none =>
    exact .inl ⟨.familyNotFound,by simp [Monitor.unregisterSubfamily,lookupFamily,hl],by simp⟩
  | some g =>
    have hg := ((h.tree.table pid g).mp hl).1
    by_cases hgt : g = m.tree
    · subst hgt
      refine .inl ⟨.unregisterRoot,?_,by simp⟩
      simp [Monitor.unregisterSubfamily,lookupFamily,hl,h.tree.parent_tree]
    · obtain ⟨m',p,hrun,hpar,hun⟩ := h.unregisterNode hg hgt
      have hnd := h.tree.nodup
      refine .inr ⟨m',g,p,?_,Eq.refl _,hg,hgt,hpar,hun,hun.shape,?_,hun.tree,hun.everybodyElse,?_,
        ?_,?_,
        ?_,?_⟩
      · simp [Monitor.unregisterSubfamily,lookupFamily,hl,hpar,hrun]
      · exact hc.congr hun.sameProcess
      · rw [hun.nextFamily]
      · intro z hz
        exact .inl ((mem_erase_ids hnd).mp hz).2
      · intro z _ hz
        exact hun.keys hnd hz
      · intro _ k z _ hz hz'
        exact (hun.total h hpar k hz ((mem_erase_ids hnd).mp hz').1).ge
      · intro t _
        rw [hun.pointers t]
        exact erase_subset

theorem Shape.retracked (h : Shape m F L) (login : List (Nat × Nat))
    (environment : List (List String × Nat)) (group : Option GIDPool) :
    Shape { m with loginTracker := login, environmentTracker := environment, groupTracker := group }
      F L :=
  ⟨⟨h.tree.holds,h.tree.roots,h.tree.nodup,h.tree.families,h.tree.everybodyElse,h.tree.table,
      h.tree.rootPid,h.tree.elseRoot,h.tree.fresh⟩,
    ⟨h.members.chain,h.members.nodup,h.members.mem,h.members.table,h.members.fresh⟩,h.home⟩

theorem Tracked.cons (h : Tracked m F) {g : Nat} {t : Tracker} (hg : g ∈ F.ids) (ht : t ≠ .pid)
    (hp : (m'.pointers t).Perm (g :: m.pointers t))
    (hother : ∀ t', t' ≠ t → m'.pointers t' = m.pointers t') : Tracked m' F where
  valid t' z hz := by
    by_cases htt : t' = t
    · subst htt
      rcases List.mem_cons.mp (hp.subset hz) with rfl | hz
      · exact hg
      · exact h.valid t' z hz
    · rw [hother t' htt] at hz
      exact h.valid t' z hz
  nodup := by
    rw [hother .pid (Ne.symm ht)]
    exact h.nodup

end Monitor

namespace World

variable {w : World} {F : Forest Nat} {L : Nat → List Nat} {ps : List ProcInfo}
  {e : List ProcInfo × Operation}

structure Good (w : World) (F : Forest Nat) (L : Nat → List Nat) : Prop where
  shape : Shape w.monitor F L
  complete : Complete (live w.last) w.monitor
  tracked : Tracked w.monitor F
  listing : Listing w.last

theorem Good.snapshot (h : Good w F L) (hps : Listing ps)
    (hroot : (w.monitor.families w.monitor.tree).map (watched ps) = some true) :
    ∃ m' F' L', w.monitor.snapshot ps = some m' ∧ Stepped (live ps) w.monitor F L m' F' L' ∧
      (Releasable (live ps) w.monitor F → Tracked m' F') := by
  rw [← snapshot_live]
  apply h.shape.snapshot h.complete.unmarked h.tracked hps (live_pid ps)
  rw [funext (watched_live ps)]
  exact hroot

private theorem unregisters_of_takesSnapshot {m : Monitor} {op : Operation}
    (h : op.takesSnapshot = true)
    (g : Nat) : op.unregisters m ps g = decide ((m.families g).map (watched ps) = some false) := by
  cases op with
  | unregisterSubfamily pid => simp [Operation.takesSnapshot] at h
  | _ => simp [Operation.unregisters,h]

theorem Clean.count_le (h : Clean w e) {g : Nat} (hg : e.2.unregisters w.monitor e.1 g = true)
    (t : Tracker) (ht : t ≠ .pid) : (w.monitor.pointers t).count g ≤ 1 := by
  by_cases hin : g ∈ w.monitor.pointers t
  · refine h t ?_ g hin hg
    cases t <;> simp at ht ⊢
  · rw [count_eq_zero_of_not_mem hin]
    exact Nat.zero_le 1

theorem Clean.releasable (h : Clean w e) (he : e.2.takesSnapshot = true) :
    Releasable (live e.1) w.monitor F := by
  intro g _ hw t ht
  rw [funext (watched_live e.1)] at hw
  exact h.count_le (by simpa [unregisters_of_takesSnapshot he] using hw) t ht

theorem Good.step (h : Good w F L) (htr : e.2.tracks = false)
    (hps : e.2.takesSnapshot = true → Listing e.1) (hroot : e.2.takesSnapshot = true →
      (w.monitor.families w.monitor.tree).map (watched e.1) = some true) :
    ∃ m' F' L', w.monitor.apply e.1 e.2 = some m' ∧
      Stepped (live (if e.2.takesSnapshot then e.1 else w.last)) w.monitor F L m' F' L' ∧
      (Clean w e → Tracked m' F') := by
  obtain ⟨ps,op⟩ := e
  cases op with
  | snapshot =>
    obtain ⟨m',F',L',hrun,hs,ht⟩ := h.snapshot (hps rfl) (hroot rfl)
    exact ⟨m',F',L',hrun,hs,fun hc => ht (hc.releasable rfl)⟩
  | registerSubfamily rootPid watcherPid interval =>
    cases hop : (Operation.registerSubfamily rootPid watcherPid interval).takesSnapshot with
    | true =>
      obtain ⟨m1,F1,L1,hrun,hs,ht⟩ := h.snapshot (hps hop) (hroot hop)
      obtain ⟨m',err,F',L',hreg,hs',ht'⟩ := h.shape.registerSubfamily hop hrun (hps hop) hs
      refine ⟨m',F',L',by simp [Monitor.apply,hreg],by simpa [hop] using hs',fun hc => ?_⟩
      exact ht' (ht (hc.releasable hop))
    | false =>
      obtain ⟨err,hreg⟩ := registerSubfamily_refused w.monitor ps hop
      refine ⟨w.monitor,F,L,by simp [Monitor.apply,hreg],?_,fun _ => h.tracked⟩
      simpa [hop] using Stepped.rfl h.shape h.complete
  | unregisterSubfamily pid =>
    rcases h.shape.unregisterSubfamily h.complete pid with ⟨err,hrun,-⟩ |
      ⟨m',g,p,hrun,hl,-,hgt,-,hun,hs⟩
    · exact ⟨w.monitor,F,L,by simp [Monitor.apply,hrun],Stepped.rfl h.shape h.complete,
        fun _ => h.tracked⟩
    · refine ⟨m',_,_,by simp [Monitor.apply,hrun],hs,fun hc => ?_⟩
      refine h.tracked.unregistered hun h.shape.tree.nodup fun t => ?_
      by_cases ht : t = .pid
      · rw [ht]
        exact List.nodup_iff_count_le_one.mp h.tracked.nodup g
      · exact hc.count_le (by simp [Operation.unregisters,hl,hgt]) t ht
  | trackFamilyViaEnvironment | trackFamilyViaLogin
  | trackFamilyViaSupplementaryGroup => simp [Operation.tracks] at htr
  | signalFamily pid =>
    obtain ⟨m',F',L',hrun,hs,ht⟩ := h.snapshot (hps rfl) (hroot rfl)
    refine ⟨m',F',L',?_,hs,fun hc => ht (hc.releasable rfl)⟩
    cases hl : m'.lookupFamily pid true with
    | none => simp [Monitor.apply,Monitor.signalFamily,hrun,hl]
    | some g =>
      simp [Monitor.apply,Monitor.signalFamily,hrun,hl,
        hs.shape.signalNode (hs.shape.tree.lookup_mem hl)]
  | getFamilyUsage pid =>
    refine ⟨w.monitor,F,L,?_,Stepped.rfl h.shape h.complete,fun _ => h.tracked⟩
    cases hl : w.monitor.lookupFamily pid true with
    | none => simp [Monitor.apply,Monitor.getFamilyUsage,hl]
    | some g => simp [Monitor.apply,h.shape.getFamilyUsage hl]

theorem Good.retracked (h : Good w F L) (login : List (Nat × Nat))
    (environment : List (List String × Nat)) (group : Option GIDPool) (ht : Tracked { w.monitor with
      loginTracker := login, environmentTracker := environment, groupTracker := group } F) :
    Good ⟨{ w.monitor with
      loginTracker := login, environmentTracker := environment, groupTracker :=
        group },w.last⟩ F L :=
  ⟨h.shape.retracked _ _ _,⟨h.complete.unmarked,h.complete.listed,h.complete.known⟩,ht,h.listing⟩

theorem Good.track (h : Good w F L) (htr : e.2.tracks = true) :
    ∃ m', w.monitor.apply e.1 e.2 = some m' ∧ Good ⟨m',w.last⟩ F L ∧
      m'.families = w.monitor.families ∧ m'.tree = w.monitor.tree := by
  obtain ⟨ps,op⟩ := e
  cases op with
  | trackFamilyViaEnvironment pid penvid =>
    cases hl : w.monitor.lookupFamily pid true with
    | none =>
      exact ⟨w.monitor,by simp [Monitor.apply,Monitor.trackFamilyViaEnvironment,hl],h,rfl,rfl⟩
    | some g =>
      refine ⟨{ w.monitor with
        environmentTracker := (penvid,g) :: w.monitor.environmentTracker },?_,?_,rfl,rfl⟩
      · simp only [Monitor.apply,Monitor.trackFamilyViaEnvironment,hl]
      · apply h.retracked
        refine h.tracked.cons (t := .environment) (h.shape.tree.lookup_mem hl) (by simp)
          (List.Perm.refl _) fun t ht => ?_
        cases t with
        | environment => exact absurd rfl ht
        | _ => rfl
  | trackFamilyViaLogin pid uid =>
    cases hl : w.monitor.lookupFamily pid true with
    | none => exact ⟨w.monitor,by simp [Monitor.apply,Monitor.trackFamilyViaLogin,hl],h,rfl,rfl⟩
    | some g =>
      refine ⟨{ w.monitor with loginTracker := (uid,g) :: w.monitor.loginTracker },?_,?_,rfl,rfl⟩
      · simp only [Monitor.apply,Monitor.trackFamilyViaLogin,hl]
      · apply h.retracked
        refine h.tracked.cons (t := .login) (h.shape.tree.lookup_mem hl) (by simp)
          (List.Perm.refl _) fun t ht => ?_
        cases t with
        | login => exact absurd rfl ht
        | _ => rfl
  | trackFamilyViaSupplementaryGroup pid gid =>
    cases hg : w.monitor.groupTracker with
    | none =>
      refine ⟨w.monitor,?_,h,rfl,rfl⟩
      simp [Monitor.apply,Monitor.trackFamilyViaSupplementaryGroup,hg]
    | some pool =>
      cases hl : w.monitor.lookupFamily pid true with
      | none =>
        refine ⟨w.monitor,?_,h,rfl,rfl⟩
        simp [Monitor.apply,Monitor.trackFamilyViaSupplementaryGroup,hg,hl]
      | some g =>
        cases ha : pool.addMapping g gid with
        | none =>
          refine ⟨w.monitor,?_,h,rfl,rfl⟩
          simp [Monitor.apply,Monitor.trackFamilyViaSupplementaryGroup,hg,hl,ha]
        | some r =>
          refine ⟨{ w.monitor with groupTracker := some r.1 },?_,?_,rfl,rfl⟩
          · simp [Monitor.apply,Monitor.trackFamilyViaSupplementaryGroup,hg,hl,ha]
          · apply h.retracked
            refine h.tracked.cons (t := .group) (h.shape.tree.lookup_mem hl) (by simp) ?_
              fun t ht => ?_
            · simpa [pointers,hg] using GIDPool.addMapping_perm ha
            · cases t with
              | group => exact absurd rfl ht
              | _ => rfl
  | _ => simp [Operation.tracks] at htr

end World

end Condor.Procd
