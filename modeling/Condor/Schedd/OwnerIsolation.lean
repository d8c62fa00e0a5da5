import Condor.Schedd.Isolation

/-!
# Users do not touch the ads of others

The requests of one connection, made by a user without privileges.
-/

namespace Condor.Schedd

open Lib List Function Option

/-- What is assumed of the configuration and of the ClassAd language for a user without
privileges. -/
structure Env.Ordinary (E : Env) (u : CString) : Prop where
  notTrusted : E.allUsersTrusted = false
  notSuper : Qmgmt.isQueueSuperUser E u = false
  asRoot : E.runsAsRootOrCondor = true
  notRounded : ∀ s, attrName s = attrOwner → E.roundParam s = false
  parsed : E.parse (quote :: u ++ [quote]) = some (.string u)

namespace Qmgmt

structure Isolated (B : Before) (q : Qmgmt) : Prop where
  committed : B.Kept q.jobQueue.committed
  pending : ∀ op ∈ q.jobQueue.pending.getD [], B.Allowed op
  active : 1 ≤ q.activeClusterNum → B.New q.activeClusterNum
  next : ∃ k, q.nextClusterNum = B.advance^[k] B.next
  settings : q.settings = B.settings
  peer : ∃ p, q.peer = some p ∧ p.owner = some B.user

variable {B : Before} {E : Env} {q q' : Qmgmt}

private theorem Isolated.of_queue (h : Isolated B q) (hn : SameNums q q')
    (hc : B.Kept q'.jobQueue.committed) (hp : ∀ op ∈ q'.jobQueue.pending.getD [], B.Allowed op) :
    Isolated B q' where
  committed := hc
  pending := hp
  active := by
    rw [hn.activeClusterNum]
    exact h.active
  next := by
    rw [hn.nextClusterNum]
    exact h.next
  settings := hn.settings.trans h.settings
  peer := by
    rw [hn.peer]
    exact h.peer

theorem Isolated.log (h : Isolated B q) {op : QueueOp} (hop : B.Allowed op) :
    Isolated B (q.log op) := by
  cases hp : q.jobQueue.pending with
  | none =>
    have hq : (q.log op).jobQueue = ⟨op.play q.jobQueue.committed,none⟩ := by
      rw [Qmgmt.log,JobQueue.append,Ledger.append,hp]
    refine h.of_queue (SameVars.log q op).nums ?_ ?_
    · rw [hq]
      exact h.committed.play hop
    · rw [hq]
      simp
  | some ops =>
    have hq : (q.log op).jobQueue = ⟨q.jobQueue.committed,some (ops ++ [op])⟩ := by
      rw [Qmgmt.log,JobQueue.append,Ledger.append,hp]
    refine h.of_queue (SameVars.log q op).nums ?_ ?_
    · rw [hq]
      exact h.committed
    · rw [hq]
      intro op' hop'
      rcases List.mem_append.mp hop' with hop' | hop'
      · exact h.pending op' (by rw [hp]; exact hop')
      · rw [List.mem_singleton.mp hop']
        exact hop

variable {id : ProcId}

theorem Isolated.dropAutoCluster (h : Isolated B q) (hid : B.Mine id) :
    Isolated B (q.dropAutoCluster id) := by
  refine h.of_queue ⟨rfl,rfl,rfl,rfl,rfl⟩ ?_ h.pending
  refine h.committed.adjust hid fun ad had => had.of_same ?_ rfl
  rw [deleteAttr_ne _ _ _ (by decide),deleteAttr_ne _ _ _ (by decide)]

theorem Isolated.edited {P : QueueOp → Prop} {K : ProcId → Prop} (h : Isolated B q)
    (he : Edited P K q q') (hP : ∀ op, P op → B.Allowed op) (hK : ∀ id, K id → B.Mine id) :
    Isolated B q' := by
  induction he with
  | refl => exact h
  | log _ hop ih => exact ih.log (hP _ hop)
  | forget _ hid ih => exact ih.dropAutoCluster (hK _ hid)
  | touch _ _ _ ih => exact ih.of_queue ⟨rfl,rfl,rfl,rfl,rfl⟩ ih.committed ih.pending

theorem Isolated.ownerCheck (h : Isolated B q) (hE : E.Ordinary B.user) {v : CString}
    (hv : v ≠ B.user) : q.ownerCheck E (some v) = false := by
  obtain ⟨p,hp,hu⟩ := h.peer
  have hne : (v == B.user) = false := by simpa using hv
  rw [Qmgmt.ownerCheck,hp]
  dsimp only
  rw [hu]
  simp [ownerCheck2,hE.notTrusted,hE.asRoot,hE.notSuper,hne]

private theorem Isolated.foreign_refused (h : Isolated B q) (hE : E.Ordinary B.user)
    (hid : B.Foreign id) : ∃ ad, q.jobQueue.lookupClassAd id = some ad ∧
      B.table.lookup id = some ad ∧ q.ownerCheck E (q.ownerOf E id ad) = false := by
  obtain ⟨ad,v,hlook,hbefore,howner,-,hne⟩ := h.committed.owner_same hid
  refine ⟨ad,hlook,hbefore,?_⟩
  have ho : q.ownerOf E id ad = some v := by
    rw [ownerOf,lookupString,howner]
  rw [ho]
  exact h.ownerCheck hE hne

private theorem Isolated.mine_of_writable (h : Isolated B q) (hE : E.Ordinary B.user)
    (hid : id ≠ headerKey) {name value : Option CString} {ad : Option QueueAd}
    (hw : q.writableAd E id name value = some ad) : B.Mine id := by
  refine ⟨hid,fun hf => ?_⟩
  obtain ⟨ad',hlook,-,hno⟩ := h.foreign_refused hE hf
  rw [writableAd] at hw
  split at hw
  · simp at hw
  · split at hw
    · simp at hw
    · split at hw
      · simp at hw
      · rw [hlook] at hw
        simp [hno] at hw

theorem Isolated.checkOwner (h : Isolated B q) (hE : E.Ordinary B.user)
    {v v' owner : CString} (hc : q.checkOwner E id v = some (owner,v')) :
    v' = quote :: B.user ++ [quote] := by
  obtain ⟨p,hp,hu⟩ := h.peer
  have hsock : (q.peer.bind Peer.owner).getD [] = B.user := by
    rw [hp,bind_some,hu]
    rfl
  rw [Qmgmt.checkOwner,hsock] at hc
  rw [bind_eq_some_iff] at hc
  obtain ⟨w,-,hc⟩ := hc
  rw [bind_eq_some_iff] at hc
  obtain ⟨o,ho,hc⟩ := hc
  have htext : w = quote :: o ++ [quote] := by
    unfold unquote at ho
    cases w with
    | nil => simp at ho
    | cons c rest =>
      dsimp only at ho
      split at ho
      · next hcond =>
        cases ho
        rw [hcond.1,cons_append,dropLast_append_getLast? _ hcond.2]
      · simp at ho
  split at hc
  · simp at hc
  · split at hc
    · simp at hc
    · next hother =>
      cases hc
      rw [hE.notTrusted,hE.notSuper] at hother
      have hou : owner = B.user := by simpa using hother
      rw [htext,hou]

variable {r : Qmgmt × Int}

theorem Isolated.setAttribute (h : Isolated B q) (hE : E.Ordinary B.user)
    (hid : id ≠ headerKey) {name value : Option CString} {flags : Flags}
    (hr : q.setAttribute E id name value flags = some r) : Isolated B r.1 := by
  cases hw : q.writableAd E id name value with
  | none =>
    rw [Qmgmt.setAttribute,hw] at hr
    cases hr
    exact h
  | some ad =>
    have hm := h.mine_of_writable hE hid hw
    have he : Edited B.Allowed (· = id) q r.1 := by
      refine setAttribute_edited_of (fun n v hn => hm.setAttribute n v hn) (fun s hs v hv => ?_) hr
      obtain ⟨v',v'',owner,rfl,hc⟩ := hv (hE.notRounded s hs)
      refine .inr ⟨hm,fun _ => .inr ?_⟩
      have ht := h.checkOwner hE hc
      subst ht
      exact hE.parsed
    exact h.edited he (fun _ hop => hop) fun _ hk => hk ▸ hm

theorem Isolated.setOrdinary (h : Isolated B q) (hE : E.Ordinary B.user)
    (hid : id ≠ headerKey) {name : CString} (hn : attrName name ≠ attrOwner)
    {value : Option CString} {flags : Flags}
    (hr : q.setOrdinary E id name value flags = some r) : Isolated B r.1 := by
  cases hw : q.writableAd E id (some name) value with
  | none =>
    rw [Qmgmt.setOrdinary,hw] at hr
    cases hr
    exact h
  | some ad =>
    have hm := h.mine_of_writable hE hid hw
    have he : Edited B.Allowed (· = id) q r.1 := setOrdinary_edited hm.setAttribute hn hr
    exact h.edited he (fun _ hop => hop) fun _ hk => hk ▸ hm

theorem Isolated.setMyProxyPassword (h : Isolated B q) (hE : E.Ordinary B.user)
    (hid : id.cluster ≠ 0) (hr : q.setMyProxyPassword E id = some r) :
    Isolated B r.1 := by
  have hkey : passwordKey id ≠ headerKey :=
    cluster_ne_header ((cluster_passwordKey id).symm ▸ hid)
  rw [Qmgmt.setMyProxyPassword,bind_eq_some_iff] at hr
  obtain ⟨r1,hr1,hr⟩ := hr
  have h1 : Isolated B r1.1 := h.setOrdinary hE hkey (by decide) hr1
  split at hr
  · simp at hr
  · cases hr
    exact h1

theorem Isolated.deleteAttribute (h : Isolated B q) (hE : E.Ordinary B.user)
    (hid : id ≠ headerKey) {name : Option CString}
    (hr : q.deleteAttribute E id name = some r) : Isolated B r.1 := by
  unfold Qmgmt.deleteAttribute at hr
  dsimp only at hr
  split at hr
  · cases hr
    exact h
  · split at hr
    · cases hr
      exact h
    · next hcheck =>
      have hf : ¬ B.Foreign id := by
        intro hf
        obtain ⟨ad,hlook,-,hno⟩ := h.foreign_refused hE hf
        rw [hlook,bind_some,hno] at hcheck
        simp at hcheck
      cases name with
      | none => simp at hr
      | some s =>
        cases hr
        exact h.log ⟨hid,hf⟩

theorem Isolated.setAttributeByConstraint (h : Isolated B q) (hE : E.Ordinary B.user)
    {constraint name value : Option CString} {flags : Flags}
    (hr : q.setAttributeByConstraint E constraint name value flags = some r) :
    Isolated B r.1 := by
  rw [Qmgmt.setAttributeByConstraint,map_eq_some_iff] at hr
  obtain ⟨s,hs,rfl⟩ := hr
  -- every turn checks the owner in the state in which it is taken
  have hstep : ∀ s1 e s2, Isolated B s1.q →
      constraintTurn E constraint name value flags s1 e = some s2 → Isolated B s2.q := by
    intro s1 e s2 h1 hturn
    rw [constraintTurn] at hturn
    split at hturn
    · cases hturn
      exact h1
    · next hjob =>
      rw [bind_eq_some_iff] at hturn
      obtain ⟨c,-,hturn⟩ := hturn
      dsimp only at hturn
      split at hturn
      · rw [map_eq_some_iff] at hturn
        obtain ⟨r,hr,rfl⟩ := hturn
        have hid : e.1.cluster ≠ 0 := by omega
        exact h1.setAttribute hE (cluster_ne_header hid) hr
      · cases hturn
        exact h1
  exact run_preserves hstep (s := ⟨q,false,false⟩) h hs

theorem Isolated.stampCompletion (h : Isolated B q) (hid : B.Mine id) {attrs : Attrs}
    (hs : q.stampCompletion E id attrs = some q') : Isolated B q' := by
  have he : Edited B.Allowed (· = id) q q' := stampCompletion_edited_of hid.setAttribute hs
  exact h.edited he (fun _ hop => hop) fun _ hk => hk ▸ hid

theorem Isolated.destroyMyProxyPassword (h : Isolated B q) (hid : B.Mine id)
    (hs : q.destroyMyProxyPassword E id = some q') : Isolated B q' := by
  have he : Edited B.Allowed (· = id) q q' := destroyMyProxyPassword_edited_of hid.setAttribute hs
  exact h.edited he (fun _ hop => hop) fun _ hk => hk ▸ hid

variable {c : Int}

theorem Isolated.clusterCleanup (h : Isolated B q) (hc : ¬ B.Foreign (clusterKey c)) :
    Isolated B (q.clusterCleanup c) := by
  have hsame : Isolated B { q with clusterSize := update q.clusterSize c none } :=
    h.of_queue ⟨rfl,rfl,rfl,rfl,rfl⟩ h.committed h.pending
  exact hsame.log ⟨Before.clusterKey_ne_header c,hc⟩

theorem Isolated.decrementClusterSize (h : Isolated B q)
    (hc : ¬ B.Foreign (clusterKey c)) : Isolated B (q.decrementClusterSize c) := by
  have hsame : Isolated B { q with totalJobsCount := q.totalJobsCount - 1 } :=
    h.of_queue ⟨rfl,rfl,rfl,rfl,rfl⟩ h.committed h.pending
  rw [Qmgmt.decrementClusterSize]
  split
  · exact hsame
  · split
    · exact hsame.clusterCleanup hc
    · exact hsame.of_queue ⟨rfl,rfl,rfl,rfl,rfl⟩ hsame.committed hsame.pending

theorem Isolated.removeProc (h : Isolated B q) (hid : B.Mine id)
    (hc : ¬ B.Foreign (clusterKey id.cluster)) (hr : q.removeProc E id = some q') :
    Isolated B q' := by
  rw [Qmgmt.removeProc,map_eq_some_iff] at hr
  obtain ⟨q1,hq1,rfl⟩ := hr
  have h1 : Isolated B (q1.log (.destroyClassAd id)) :=
    (h.destroyMyProxyPassword hid hq1).log hid
  exact h1.decrementClusterSize hc

theorem Isolated.destroyClusterTurn (hc : 1 ≤ c) {s s' : Destroying} {e : ProcId × QueueAd}
    (h : Isolated B s.q) (hE : E.Ordinary B.user)
    (he : B.Foreign e.1 → B.table.lookup e.1 = some e.2)
    (hr : Qmgmt.destroyClusterTurn E c s e = some s') :
    Isolated B s'.q ∧ (s.refused = true → s'.refused = true) ∧
      (B.Foreign e.1 → e.1.cluster = c → -1 < e.1.proc → s'.refused = true) := by
  rw [Qmgmt.destroyClusterTurn] at hr
  split at hr
  · next hskip =>
    cases hr
    refine ⟨h,fun hs => hs,fun _ hcl hp => ?_⟩
    rcases hskip with hs | hne | hle
    · exact hs
    · exact absurd hcl hne
    · omega
  · next hskip =>
    simp only [not_or,not_not,not_le,Bool.not_eq_true] at hskip
    split at hr
    · cases hr
      exact ⟨h,fun _ => rfl,fun _ _ _ => rfl⟩
    · next hcheck =>
      have hf : ¬ B.Foreign e.1 := by
        intro hf
        obtain ⟨ad,-,hbefore,hno⟩ := h.foreign_refused hE hf
        obtain rfl : e.2 = ad := some.inj ((he hf).symm.trans hbefore)
        rw [hno] at hcheck
        simp at hcheck
      have hm : B.Mine e.1 := ⟨cluster_ne_header (by omega),hf⟩
      rw [map_eq_some_iff] at hr
      obtain ⟨q1,hq1,rfl⟩ := hr
      have h1 : Isolated B q1 := h.stampCompletion hm hq1
      refine ⟨?_,fun hs => absurd hs (by simp [hskip.1]),fun hf' => absurd hf' hf⟩
      split
      · exact h1
      · exact h1.log hm

private theorem Isolated.destroyClusterLoop (hc : 1 ≤ c) (hE : E.Ordinary B.user) {t : JobTable}
    (ht : ∀ e ∈ t, B.Foreign e.1 → B.table.lookup e.1 = some e.2) {s s' : Destroying}
    (h : Isolated B s.q) (hr : run (Qmgmt.destroyClusterTurn E c) s t = some s') :
    Isolated B s'.q ∧ (s.refused = true → s'.refused = true) ∧
      ((∃ e ∈ t, B.Foreign e.1 ∧ e.1.cluster = c ∧ -1 < e.1.proc) → s'.refused = true) := by
  induction t generalizing s with
  | nil =>
    obtain rfl := some.inj hr
    exact ⟨h,fun hs => hs,by simp⟩
  | cons e t ih =>
    obtain ⟨s1,hs1,hr⟩ := run_cons_eq_some hr
    obtain ⟨h1,hkeep,hhit⟩ := h.destroyClusterTurn hc hE (ht e mem_cons_self) hs1
    obtain ⟨h2,hkeep2,hhit2⟩ := ih (fun e' he' => ht e' (mem_cons_of_mem _ he')) h1 hr
    refine ⟨h2,fun hs => hkeep2 (hkeep hs),?_⟩
    rintro ⟨e',he',hf,hcl,hp⟩
    rcases List.mem_cons.mp he' with rfl | he'
    · exact hkeep2 (hhit hf hcl hp)
    · exact hhit2 ⟨e',he',hf,hcl,hp⟩

/-- `DestroyCluster` of a cluster whose ad belongs to another user is refused if there is a job
of another user in it. -/
theorem Isolated.destroyCluster (h : Isolated B q) (hE : E.Ordinary B.user)
    (hc : B.Foreign (clusterKey c) →
      ∃ id ∈ B.table.keys, B.Foreign id ∧ id.cluster = c ∧ -1 < id.proc)
    (hr : q.destroyCluster E c = some r) : Isolated B r.1 := by
  rw [Qmgmt.destroyCluster] at hr
  split at hr
  · cases hr
    exact h
  · next hpos =>
    rw [bind_eq_some_iff] at hr
    obtain ⟨s,hs,hr⟩ := hr
    have ht : ∀ e ∈ q.jobQueue.committed, B.Foreign e.1 → B.table.lookup e.1 = some e.2 := by
      intro e he hf
      obtain ⟨ad,v,had,hcol,-⟩ := hf.column
      have hmem : e.2 ∈ q.jobQueue.committed.column e.1 := Table.mem_column.mpr he
      rw [h.committed.foreign e.1 hf,hcol,mem_singleton] at hmem
      rw [hmem]
      exact had
    obtain ⟨h1,-,hhit⟩ := h.destroyClusterLoop (by omega) hE ht hs
    split at hr
    · cases hr
      exact h1
    · next hnot =>
      have hf : ¬ B.Foreign (clusterKey c) := by
        intro hf
        obtain ⟨id,-,hid,hcl,hp⟩ := hc hf
        obtain ⟨ad,hlook,-⟩ := h.foreign_refused hE hid
        exact hnot (hhit ⟨(id,ad),Table.mem_of_lookup hlook,hid,hcl,hp⟩)
      rw [map_eq_some_iff] at hr
      obtain ⟨q1,hq1,rfl⟩ := hr
      exact (h1.clusterCleanup hf).destroyMyProxyPassword ⟨Before.clusterKey_ne_header c,hf⟩ hq1

theorem Isolated.commitTransaction (h : Isolated B q) : Isolated B q.commitTransaction := by
  have hview : B.Kept q.jobQueue.view := h.committed.playAll h.pending
  have hchain : ∀ (ids : List ProcId) (t : JobTable), B.Kept t →
      (∀ id ∈ ids, B.Allowed (.newClassAd id)) → B.Kept (ids.foldl chainToCluster t) := by
    intro ids
    induction ids with
    | nil => exact fun t ht _ => ht
    | cons id ids ih =>
      exact fun t ht hids => ih _ (ht.chainToCluster (hids id mem_cons_self))
        fun id' hid' => hids id' (mem_cons_of_mem _ hid')
  refine h.of_queue ⟨rfl,rfl,rfl,rfl,rfl⟩ (hchain _ _ hview ?_) ?_
  · intro id hid
    rw [JobQueue.newAdsInTransaction,mem_filterMap] at hid
    obtain ⟨op,hop,heq⟩ := hid
    cases op with
    | newClassAd k =>
      cases heq
      exact h.pending _ hop
    | destroyClassAd | setAttribute | deleteAttribute => simp at heq
  · intro op hop
    simp [Qmgmt.commitTransaction,Ledger.commit] at hop

theorem Isolated.abortTransaction (h : Isolated B q) : Isolated B q.abortTransaction := by
  refine h.of_queue ⟨rfl,rfl,rfl,rfl,rfl⟩ h.committed ?_
  intro op hop
  simp [Qmgmt.abortTransaction,Ledger.abort] at hop

theorem Isolated.beginTransaction (h : Isolated B q) (hb : q.beginTransaction E = some q') :
    Isolated B q' := by
  have hn := SameNums.beginTransaction hb
  rw [Qmgmt.beginTransaction] at hb
  split at hb
  · simp at hb
  · cases hb
    refine h.of_queue hn h.committed ?_
    intro op hop
    simp [Ledger.start] at hop

theorem Isolated.destroyProc (h : Isolated B q) (hE : E.Ordinary B.user)
    (hid : id ≠ headerKey) (hc : B.Foreign (clusterKey id.cluster) → B.Foreign id)
    (hr : q.destroyProc E id = some r) : Isolated B r.1 := by
  unfold Qmgmt.destroyProc at hr
  split at hr
  · cases hr
    exact h
  · next ad hlook =>
    split at hr
    · cases hr
      exact h
    · next hcheck =>
      have hf : ¬ B.Foreign id := by
        intro hf
        obtain ⟨ad',hlook',-,hno⟩ := h.foreign_refused hE hf
        obtain rfl : ad = ad' := some.inj (hlook.symm.trans hlook')
        rw [hno] at hcheck
        simp at hcheck
      have hcf : ¬ B.Foreign (clusterKey id.cluster) := fun hcf => hf (hc hcf)
      have hm : B.Mine id := ⟨hid,hf⟩
      rw [bind_eq_some_iff] at hr
      obtain ⟨q1,hq1,hr⟩ := hr
      have h1 : Isolated B q1 := h.stampCompletion hm hq1
      split at hr
      · cases hr
        exact h1
      · split at hr
        · rw [map_eq_some_iff] at hr
          obtain ⟨r1,hr1,rfl⟩ := hr
          have h2 : Isolated B r1.1 := h1.destroyCluster hE (fun hf' => absurd hf' hcf) hr1
          exact h2
        · split at hr
          · rw [map_eq_some_iff] at hr
            obtain ⟨q2,hq2,rfl⟩ := hr
            exact h1.removeProc hm hcf hq2
          · rw [bind_eq_some_iff] at hr
            obtain ⟨q2,hq2,hr⟩ := hr
            rw [map_eq_some_iff] at hr
            obtain ⟨q3,hq3,rfl⟩ := hr
            exact ((h1.beginTransaction hq2).removeProc hm hcf hq3).commitTransaction

theorem Isolated.takeClusterNum (h : Isolated B q) (hnew : B.New q.nextClusterNum) :
    Isolated B q.takeClusterNum where
  committed := h.committed
  pending := h.pending
  active := fun _ => hnew
  next := by
    obtain ⟨k,hk⟩ := h.next
    refine ⟨k + 1,?_⟩
    rw [iterate_succ_apply',← hk,Before.advance,← h.settings]
    rfl
  settings := h.settings
  peer := h.peer

theorem Isolated.newCluster (h : Isolated B q) (hnew : B.New q.nextClusterNum) :
    Isolated B (q.newCluster E).1 := by
  have ht := h.takeClusterNum hnew
  rcases newCluster_cases E q with h' | ⟨-,h'⟩ | h' | h' <;> rw [h']
  · exact h
  · exact h
  · exact ht
  · have hhanded : B.Handed q.takeClusterNum.nextClusterNum := by
      obtain ⟨k,hk⟩ := h.next
      refine ⟨k,?_⟩
      rw [iterate_succ_apply',← hk,Before.advance,← h.settings]
      rfl
    have hset : B.Allowed (.setAttribute headerKey attrNextClusterNum
        (some (.integer q.takeClusterNum.nextClusterNum))) :=
      .inl ⟨rfl,rfl,_,rfl,hhanded⟩
    have hmake : B.Allowed (.newClassAd (clusterKey q.takeClusterNum.activeClusterNum)) :=
      ⟨Before.clusterKey_ne_header _,hnew⟩
    exact (ht.log hset).log hmake

theorem Isolated.newProc (h : Isolated B q) (c : Int) : Isolated B (q.newProc E c).1 := by
  rcases newProc_cases E q c with h' | ⟨-,h'⟩ | ⟨-,hpos,h'⟩ <;> rw [h']
  · exact h
  · exact h
  · have hnew := h.active hpos
    have hkey : q.nextProc ≠ headerKey := cluster_ne_header (by
      change q.activeClusterNum ≠ 0
      omega)
    have hm : B.Mine q.nextProc := ⟨hkey,Before.not_foreign_of_new hnew⟩
    have h0 : Isolated B { q with nextProcNum := q.nextProcNum + 1 } :=
      ⟨h.committed,h.pending,h.active,h.next,h.settings,h.peer⟩
    have hmake : B.Allowed (.newClassAd q.nextProc) := ⟨hkey,hnew⟩
    have h1 := h0.log hmake
    have h2 : Isolated B (({ q with nextProcNum := q.nextProcNum + 1 }.log
        (.newClassAd q.nextProc)).incrementClusterSize q.activeClusterNum) :=
      ⟨h1.committed,h1.pending,h1.active,h1.next,h1.settings,h1.peer⟩
    exact h2.log (hm.setAttribute attrGlobalJobId _ (by decide))

theorem Isolated.doQRequest (h : Isolated B q) (hE : E.Ordinary B.user) {r : Request}
    (hok : B.Permitted q r) {res : Qmgmt × Int} (hr : q.doQRequest E r = some res) :
    Isolated B res.1 := by
  cases r with
  | newCluster =>
    cases hr
    exact h.newCluster hok
  | newProc c =>
    cases hr
    exact h.newProc c
  | destroyProc id => exact h.destroyProc hE (cluster_ne_header hok.1) hok.2 hr
  | destroyCluster c => exact h.destroyCluster hE hok hr
  | setAttribute id name value flags =>
    rw [Qmgmt.doQRequest] at hr
    split at hr
    · exact h.setMyProxyPassword hE hok hr
    · exact h.setAttribute hE (cluster_ne_header hok) hr
  | setAttributeByConstraint constraint name value flags =>
    cases name with
    | none => simp [Qmgmt.doQRequest] at hr
    | some s =>
      dsimp only [Qmgmt.doQRequest] at hr
      split at hr
      · cases hr
        exact h
      · exact h.setAttributeByConstraint hE hr
  | setTimerAttribute id name duration =>
    rw [Qmgmt.doQRequest,setTimerAttribute] at hr
    split at hr
    · cases hr
      exact h
    · exact h.setAttribute hE (cluster_ne_header hok) hr
  | deleteAttribute id name => exact h.deleteAttribute hE (cluster_ne_header hok) hr
  | getAttribute id name =>
    cases name with
    | none => simp [Qmgmt.doQRequest] at hr
    | some s =>
      cases hr
      exact h
  | beginTransaction => exact h.beginTransaction (begin_of_doQRequest hr)
  | commitTransaction =>
    cases hr
    exact h.commitTransaction
  | abortTransaction =>
    cases hr
    exact h.abortTransaction

def serve (q : Qmgmt) (a : Env × Request) : Option Qmgmt := (q.doQRequest a.1 a.2).map Prod.fst

private theorem isolated_run {rs : List (Env × Request)} (h : Isolated B q)
    (hE : ∀ a ∈ rs, a.1.Ordinary B.user) (hok : Along serve (fun q a => B.Permitted q a.2) q rs)
    (hr : run serve q rs = some q') : Isolated B q' := by
  induction rs generalizing q with
  | nil =>
    obtain rfl := some.inj hr
    exact h
  | cons a rs ih =>
    obtain ⟨q1,hq1,hr⟩ := run_cons_eq_some hr
    have hrest := hok.2 q1 hq1
    rw [serve,map_eq_some_iff] at hq1
    obtain ⟨res,hres,rfl⟩ := hq1
    have h1 := h.doQRequest (hE a mem_cons_self) hok.1 hres
    exact ih h1 (fun a' ha' => hE a' (mem_cons_of_mem _ ha')) hrest hr

def before (q : Qmgmt) (u : CString) (hnd : q.keys.Nodup)
    (hown : ∀ id ∈ q.keys, id ≠ headerKey → (ownerIn q.jobQueue.committed id).isSome = true) :
    Before where
  user := u
  table := q.jobQueue.committed
  next := q.nextClusterNum
  settings := q.settings
  nodup := hnd
  owned := hown

private theorem isolated_connect {u : CString} (hnd : q.keys.Nodup)
    (hown : ∀ id ∈ q.keys, id ≠ headerKey → (ownerIn q.jobQueue.committed id).isSome = true)
    {peer : Peer} (hu : peer.owner = some u) (hq : q.connect E peer = some q') :
    Isolated (q.before u hnd hown) q' := by
  have h0 : Isolated (q.before u hnd hown) { q.unsetQmgmtConnection with peer := some peer } := by
    refine ⟨Before.Kept.refl,?_,?_,⟨0,rfl⟩,rfl,⟨peer,rfl,hu⟩⟩
    · intro op hop
      simp [unsetQmgmtConnection,Qmgmt.abortTransaction,Ledger.abort] at hop
    · exact fun ha => absurd ha (show ¬ (1 : Int) ≤ -1 by decide)
  exact h0.beginTransaction hq

/-- The ads of others stay as they are, no ad is made in a cluster that was there before, the header
ad changes only in its number, and no ad gets the owner of anybody else. -/
theorem owners_isolated {q q0 : Qmgmt} {u : CString} (hnd : q.keys.Nodup)
    (hown : ∀ id ∈ q.keys, id ≠ headerKey → (ownerIn q.jobQueue.committed id).isSome = true)
    {E0 : Env} {peer : Peer} (hu : peer.owner = some u) (hq : q.connect E0 peer = some q0)
    {rs : List (Env × Request)} (hE : ∀ a ∈ rs, a.1.Ordinary u)
    (hok : Along serve (fun q' a => (q.before u hnd hown).Permitted q' a.2) q0 rs) {q' : Qmgmt}
    (hr : run serve q0 rs = some q') :
    (∀ id ad, id ≠ headerKey → q.jobQueue.lookupClassAd id = some ad →
      ownerIn q.jobQueue.committed id ≠ some u → q'.jobQueue.lookupClassAd id = some ad) ∧
    (∀ id ∈ q'.keys, id ∈ q.keys ∨ ∀ id' ∈ q.keys, id'.cluster ≠ id.cluster) ∧
    Option.Rel (q.before u hnd hown).HeaderKept (q.jobQueue.lookupClassAd headerKey)
      (q'.jobQueue.lookupClassAd headerKey) ∧
    (∀ id ad', id ≠ headerKey → q'.jobQueue.lookupClassAd id = some ad' →
      JobQueue.allAttrs q'.jobQueue.committed id ad' attrOwner = none ∨
      JobQueue.allAttrs q'.jobQueue.committed id ad' attrOwner = some .undefined ∨
      JobQueue.allAttrs q'.jobQueue.committed id ad' attrOwner = some (.string u) ∨
      ∃ ad, q.jobQueue.lookupClassAd id = some ad ∧
        JobQueue.allAttrs q'.jobQueue.committed id ad' attrOwner =
          JobQueue.allAttrs q.jobQueue.committed id ad attrOwner) := by
  have h : Isolated (q.before u hnd hown) q' :=
    isolated_run (isolated_connect hnd hown hu hq) hE hok hr
  refine ⟨fun id ad hid had hne => ?_,h.committed.new,h.committed.header,
    fun id ad' hid had' => h.committed.owner hid had'⟩
  have hf : (q.before u hnd hown).Foreign id := by
    have hlook : q.jobQueue.committed.lookup id = some ad := had
    have hmem : id ∈ q.keys := Table.lookup_isSome.mp (hlook ▸ rfl)
    obtain ⟨v,hv⟩ := Option.isSome_iff_exists.mp (hown id hmem hid)
    exact ⟨hid,v,hv,fun he => hne (hv.trans (congrArg some he))⟩
  obtain ⟨ad',v,hlook,hbefore,-⟩ := h.committed.owner_same hf
  obtain rfl : ad' = ad := some.inj (hbefore.symm.trans had)
  exact hlook

/-! A queue with a cluster of one user, and another user who connects. -/

def ownedBy (user : CString) : QueueAd :=
  ⟨update (fun _ => none) attrOwner (some (.string user)),false⟩

def headerAd : QueueAd :=
  ⟨update (fun _ => none) attrNextClusterNum (some (.integer 2)),false⟩

def withCluster (t : JobTable) : Qmgmt :=
  { Qmgmt.initial ((clusterKey 1,ownedBy (cstr "alice")) :: (headerKey,headerAd) :: t) plainSettings
    with nextClusterNum := 2 }

def aliceQueue : Qmgmt := withCluster [(⟨1,0⟩,⟨fun _ => none,true⟩)]

private theorem aliceQueue_nodup : aliceQueue.keys.Nodup := by decide

private theorem aliceQueue_owned : ∀ id ∈ aliceQueue.keys, id ≠ headerKey →
    (ownerIn aliceQueue.jobQueue.committed id).isSome = true := by
  decide

private theorem plainEnv_ordinary : plainEnv.Ordinary (cstr "bob") where
  notTrusted := rfl
  notSuper := by decide
  asRoot := rfl
  notRounded := fun _ _ => rfl
  parsed := by decide

def bobRequests : List (Env × Request) :=
  [(plainEnv,.destroyProc ⟨1,0⟩),(plainEnv,.destroyCluster 1),
    (plainEnv,.setAttribute ⟨1,0⟩ (some (cstr "Owner")) (some (cstr "\"bob\"")) noFlags),
    (plainEnv,.newCluster),(plainEnv,.newProc 2),
    (plainEnv,.setAttribute ⟨2,0⟩ (some (cstr "Owner")) (some (cstr "\"bob\"")) noFlags),
    (plainEnv,.commitTransaction)]

theorem owners_isolated_bobRequests :
    ∃ q0 q', aliceQueue.connect plainEnv (plainPeer (cstr "bob")) = some q0 ∧
      run serve q0 bobRequests = some q' ∧ (⟨2,0⟩ : ProcId) ∈ q'.keys ∧
      q'.jobQueue.lookupClassAd ⟨1,0⟩ = some ⟨fun _ => none,true⟩ := by
  have h : (aliceQueue.connect plainEnv (plainPeer (cstr "bob"))).any (fun q0 =>
      decide (Along serve (fun q' a => (aliceQueue.before (cstr "bob") aliceQueue_nodup
        aliceQueue_owned).Permitted q' a.2) q0 bobRequests) &&
      (run serve q0 bobRequests).any fun q' => decide ((⟨2,0⟩ : ProcId) ∈ q'.keys)) = true := by
    decide
  obtain ⟨q0,hq,h⟩ := (Option.any_eq_true _ _).mp h
  simp only [Bool.and_eq_true,decide_eq_true_eq,Option.any_eq_true] at h
  obtain ⟨hok,q',hr,hnew⟩ := h
  have hE : ∀ a ∈ bobRequests, a.1.Ordinary (cstr "bob") := by
    simp only [bobRequests,mem_cons,not_mem_nil,or_false]
    rintro a (rfl | rfl | rfl | rfl | rfl | rfl | rfl) <;> exact plainEnv_ordinary
  have hfirst := (owners_isolated aliceQueue_nodup aliceQueue_owned rfl hq hE hok hr).1
  exact ⟨q0,q',hq,hr,hnew,hfirst ⟨1,0⟩ _ (by decide) rfl (by decide)⟩

/-- A cluster without jobs is destroyed by a user who does not own it. -/
theorem owners_not_isolated :
    ∃ q0 q', (withCluster []).connect plainEnv (plainPeer (cstr "bob")) = some q0 ∧
      ownerIn (withCluster []).jobQueue.committed (clusterKey 1) = some (cstr "alice") ∧
      run serve q0 [(plainEnv,.destroyCluster 1),(plainEnv,.commitTransaction)] = some q' ∧
      q'.jobQueue.lookupClassAd (clusterKey 1) = none := by
  have h : ((withCluster []).connect plainEnv (plainPeer (cstr "bob"))).any (fun q0 =>
      (run serve q0 [(plainEnv,.destroyCluster 1),(plainEnv,.commitTransaction)]).any fun q' =>
        (q'.jobQueue.lookupClassAd (clusterKey 1)).isNone) = true := by
    decide
  obtain ⟨q0,hq,h⟩ := (Option.any_eq_true _ _).mp h
  obtain ⟨q',hr,hnone⟩ := (Option.any_eq_true _ _).mp h
  exact ⟨q0,q',hq,by decide,hr,Option.isNone_iff_eq_none.mp hnone⟩

end Qmgmt

end Condor.Schedd
