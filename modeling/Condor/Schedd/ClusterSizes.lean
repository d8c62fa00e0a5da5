import Condor.Schedd.Edits

/-!
# Cluster sizes and the total of jobs

The counters agree with the queue as the transaction would leave it, as long as the jobs it makes
and destroys are counted once each and it is committed.
-/

namespace Condor.Schedd

open Lib List Function Option

namespace Qmgmt

variable {E : Env} {q q' : Qmgmt}

variable {id : ProcId}

private theorem jobsOf_cons_job (hj : id.isJob = true) (ks : List ProcId) (c : Int) :
    jobsOf (id :: ks) c = jobsOf ks c + if c = id.cluster then 1 else 0 := by
  rw [jobsOf,jobsOf,countP_cons,hj,Bool.true_and]
  by_cases h : c = id.cluster
  · simp [h]
  · have h' : ¬ id.cluster = c := fun he => h he.symm
    simp [h,h']

private theorem jobsOf_erase_job (hj : id.isJob = true) {ks : List ProcId} (hm : id ∈ ks)
    (c : Int) : jobsOf ks c = jobsOf (ks.erase id) c + if c = id.cluster then 1 else 0 := by
  rw [← jobsOf_cons_job hj]
  exact (perm_cons_erase hm).countP_eq _

private theorem jobsOf_erase_other (hj : id.isJob = false) (ks : List ProcId) (c : Int) :
    jobsOf (ks.erase id) c = jobsOf ks c := by
  rw [jobsOf,jobsOf,countP_erase]
  simp [hj]

private theorem recount_cons_job (hj : id.isJob = true) (ks : List ProcId) :
    recount (id :: ks) = update (recount ks) id.cluster
      (some ((recount ks id.cluster).getD 0 + 1)) := by
  funext c
  rw [update_apply,recount,jobsOf_cons_job hj]
  by_cases h : c = id.cluster
  · subst h
    rw [if_pos rfl,if_pos rfl,if_neg (by omega),recount]
    split
    · next h0 => simp [h0]
    · simp
  · rw [if_neg h,if_neg h,Nat.add_zero,recount]

private theorem recount_cons_other (hj : id.isJob = false) (ks : List ProcId) :
    recount (id :: ks) = recount ks := by
  funext c
  rw [recount,recount]
  have h : jobsOf (id :: ks) c = jobsOf ks c := by
    rw [jobsOf,jobsOf,countP_cons,hj]
    simp
  rw [h]

private theorem recount_erase_other (hj : id.isJob = false) (ks : List ProcId) :
    recount (ks.erase id) = recount ks := by
  funext c
  rw [recount,recount,jobsOf_erase_other hj]

private theorem countP_erase_job (hj : id.isJob = true) {ks : List ProcId} (hm : id ∈ ks) :
    ks.countP ProcId.isJob = (ks.erase id).countP ProcId.isJob + 1 := by
  rw [(perm_cons_erase hm).countP_eq,countP_cons,hj]
  simp

private theorem isJob_clusterKey (c : Int) : (clusterKey c).isJob = false :=
  by simp [ProcId.isJob,clusterKey]

end Qmgmt

namespace QueueOp

open Qmgmt

def countsJob : QueueOp → Bool
  | newClassAd k => k.isJob
  | destroyClassAd k => k.isJob
  | setAttribute .. => false
  | deleteAttribute .. => false

private theorem recount_playKeys (op : QueueOp) (h : op.countsJob = false) (ks : List ProcId) :
    recount (op.playKeys ks) = recount ks := by
  cases op with
  | newClassAd k => exact recount_cons_other h ks
  | destroyClassAd k => exact recount_erase_other h ks
  | setAttribute | deleteAttribute => rfl

private theorem countP_playKeys (op : QueueOp) (h : op.countsJob = false) (ks : List ProcId) :
    (op.playKeys ks).countP ProcId.isJob = ks.countP ProcId.isJob := by
  cases op with
  | newClassAd k =>
    have hk : k.isJob = false := h
    rw [playKeys,countP_cons_of_neg (by simp [hk])]
  | destroyClassAd k =>
    have hk : k.isJob = false := h
    rw [playKeys,countP_erase]
    simp [hk]
  | setAttribute | deleteAttribute => rfl

end QueueOp

namespace Qmgmt

variable {E : Env} {q q' : Qmgmt}

structure Counted (q : Qmgmt) : Prop where
  sizes : q.clusterSize = recount q.viewKeys
  total : q.totalJobsCount = q.viewKeys.countP ProcId.isJob
  nextProcNum : 0 ≤ q.nextProcNum

private theorem Counted.sameKeys (h : Counted q) (hv : SameVars q q')
    (hk : q'.viewKeys = q.viewKeys) :
    Counted q' where
  sizes := by rw [hv.clusterSize,hk,h.sizes]
  total := by rw [hv.totalJobsCount,hk,h.total]
  nextProcNum := by
    rw [hv.nextProcNum]
    exact h.nextProcNum

theorem Counted.edited {P : QueueOp → Prop} {K : ProcId → Prop} (h : Counted q)
    (he : Edited P K q q') (hP : ∀ op, P op → ∀ ks, op.playKeys ks = ks) : Counted q' :=
  h.sameKeys he.sameVars (he.viewKeys hP)

private theorem Counted.logOther (h : Counted q) {op : QueueOp} (hc : op.countsJob = false) :
    Counted (q.log op) := by
  have hs := SameVars.log q op
  refine ⟨?_,?_,?_⟩
  · rw [hs.clusterSize,viewKeys_log,h.sizes,op.recount_playKeys hc]
  · rw [hs.totalJobsCount,viewKeys_log,h.total,op.countP_playKeys hc]
  · rw [hs.nextProcNum]
    exact h.nextProcNum

theorem Counted.newCluster (h : Counted q) : Counted (q.newCluster E).1 := by
  have htake : Counted q.takeClusterNum := ⟨h.sizes,h.total,le_refl _⟩
  rcases newCluster_cases E q with h' | ⟨-,h'⟩ | h' | h' <;> rw [h']
  · exact h
  · exact h
  · exact htake
  · have hheader : Counted (q.takeClusterNum.log (.setAttribute headerKey attrNextClusterNum
        (some (.integer q.takeClusterNum.nextClusterNum)))) :=
      htake.logOther rfl
    exact hheader.logOther (isJob_clusterKey _)

private theorem viewKeys_logProc (q : Qmgmt) :
    (q.logProc E).viewKeys = q.nextProc :: q.viewKeys := by
  rw [logProc,viewKeys_log]
  exact viewKeys_log _ _

theorem Counted.logProc (h : Counted q) (hc : 1 ≤ q.activeClusterNum) : Counted (q.logProc E) := by
  have hj : q.nextProc.isJob = true := by
    have hp := h.nextProcNum
    simp only [ProcId.isJob,nextProc,Bool.and_eq_true,bne_iff_ne,ne_eq]
    omega
  refine ⟨?_,?_,?_⟩
  · rw [viewKeys_logProc,recount_cons_job hj,← h.sizes]
    rfl
  · rw [viewKeys_logProc,countP_cons,hj]
    have ht := h.total
    change q.totalJobsCount + 1 = _
    rw [ht]
    simp
  · have hp := h.nextProcNum
    change 0 ≤ q.nextProcNum + 1
    omega

theorem Counted.newProc (h : Counted q) (c : Int) : Counted (q.newProc E c).1 := by
  rcases newProc_cases E q c with h' | ⟨-,h'⟩ | ⟨hc,ha,h'⟩ <;> rw [h']
  · exact h
  · exact h
  · exact h.logProc ha

structure Overcounted (q : Qmgmt) (c : Int) : Prop where
  size : q.clusterSize c = some (jobsOf q.viewKeys c + 1 : Int)
  others : ∀ c', c' ≠ c → q.clusterSize c' = recount q.viewKeys c'
  total : q.totalJobsCount = q.viewKeys.countP ProcId.isJob + 1
  nextProcNum : 0 ≤ q.nextProcNum

variable {c : Int}

private theorem Overcounted.decrement_eq (h : Overcounted q c) :
    q.decrementClusterSize c =
      if jobsOf q.viewKeys c = 0 then
        { q with totalJobsCount := q.totalJobsCount - 1 }.clusterCleanup c
      else
        { q with
          totalJobsCount := q.totalJobsCount - 1
          clusterSize := update q.clusterSize c (some (jobsOf q.viewKeys c : Int)) } := by
  rw [decrementClusterSize]
  simp only [h.size]
  by_cases hlast : jobsOf q.viewKeys c = 0
  · rw [if_pos hlast,if_pos (by omega)]
  · rw [if_neg hlast,if_neg (by omega)]
    congr 2
    congr 1
    omega

private theorem Overcounted.viewKeys_decrement (h : Overcounted q c) :
    (q.decrementClusterSize c).viewKeys =
      if jobsOf q.viewKeys c = 0 then q.viewKeys.erase (clusterKey c) else q.viewKeys := by
  rw [h.decrement_eq]
  by_cases hlast : jobsOf q.viewKeys c = 0
  · rw [if_pos hlast,if_pos hlast]
    exact viewKeys_log _ _
  · rw [if_neg hlast,if_neg hlast]
    rfl

theorem Overcounted.counted (h : Overcounted q c) :
    Counted (q.decrementClusterSize c) := by
  rw [h.decrement_eq]
  have htotal := h.total
  split
  · next hlast =>
    have hkeys : ({ q with totalJobsCount := q.totalJobsCount - 1 }.clusterCleanup c).viewKeys =
        q.viewKeys.erase (clusterKey c) := viewKeys_log _ _
    refine ⟨?_,?_,h.nextProcNum⟩
    · rw [hkeys,recount_erase_other (isJob_clusterKey c)]
      funext c'
      change update q.clusterSize c none c' = _
      rw [update_apply]
      by_cases hc : c' = c
      · subst hc
        rw [if_pos rfl,recount,if_pos hlast]
      · rw [if_neg hc,h.others c' hc]
    · rw [hkeys,countP_erase,isJob_clusterKey]
      change q.totalJobsCount - 1 = _
      simp only [Bool.false_eq_true,and_false,if_false,Nat.sub_zero]
      omega
  · next hlast =>
    refine ⟨?_,?_,h.nextProcNum⟩
    · funext c'
      change update q.clusterSize c _ c' = recount q.viewKeys c'
      rw [update_apply]
      by_cases hc : c' = c
      · subst hc
        rw [if_pos rfl,recount,if_neg hlast]
      · rw [if_neg hc,h.others c' hc]
    · change q.totalJobsCount - 1 = (q.viewKeys.countP ProcId.isJob : Int)
      omega

private theorem Counted.overcounted (h : Counted q) {id : ProcId} (hj : id.isJob = true)
    (hm : id ∈ q.viewKeys) : Overcounted (q.log (.destroyClassAd id)) id.cluster := by
  have hs := SameVars.log q (.destroyClassAd id)
  have hview : (q.log (.destroyClassAd id)).viewKeys = q.viewKeys.erase id := viewKeys_log _ _
  have hjobs := jobsOf_erase_job hj hm
  refine ⟨?_,?_,?_,?_⟩
  · have hc := hjobs id.cluster
    rw [if_pos rfl] at hc
    rw [hs.clusterSize,hview,h.sizes,recount,if_neg (by omega),hc]
    push_cast
    rfl
  · intro c hne
    have hc := hjobs c
    rw [if_neg hne,Nat.add_zero] at hc
    rw [hs.clusterSize,hview,h.sizes,recount,recount,hc]
  · rw [hs.totalJobsCount,hview,h.total,countP_erase_job hj hm]
    push_cast
    rfl
  · rw [hs.nextProcNum]
    exact h.nextProcNum

theorem Counted.removeProc (h : Counted q) {id : ProcId} (hj : id.isJob = true)
    (hm : id ∈ q.viewKeys) (hr : q.removeProc E id = some q') :
    Counted q' ∧ q'.viewKeys =
      if jobsOf (q.viewKeys.erase id) id.cluster = 0 then
        (q.viewKeys.erase id).erase (clusterKey id.cluster)
      else q.viewKeys.erase id := by
  rw [Qmgmt.removeProc,map_eq_some_iff] at hr
  obtain ⟨q1,hq1,rfl⟩ := hr
  have hed := destroyMyProxyPassword_edited hq1
  have hsets : ∀ op, Sets id op → ∀ ks, op.playKeys ks = ks := fun _ hop => hop.playKeys
  have hcount : Counted q1 := h.edited hed hsets
  rw [← hed.viewKeys hsets] at hm ⊢
  have hover := hcount.overcounted hj hm
  have hkeys := hover.viewKeys_decrement
  rw [viewKeys_log] at hkeys
  exact ⟨hover.counted,hkeys⟩

/-- The jobs that the loop of `DestroyCluster` comes to, in whatever order. -/
def JobIn (c : Int) (e : ProcId × QueueAd) : Prop := e.1.cluster = c ∧ -1 < e.1.proc
deriving Decidable

/-- `DestroyCluster` finds no jobs, or only such as the client may not write. -/
def ClusterSpared (E : Env) (q : Qmgmt) (c : Int) : Prop :=
  c < 1 ∨ (jobsOf q.viewKeys c = 0 ∧ jobsOf q.keys c = 0) ∨
    ((∃ e ∈ q.jobQueue.committed, JobIn c e) ∧
      ∀ e ∈ q.jobQueue.committed, JobIn c e → q.ownerCheck E (q.ownerOf E e.1 e.2) = false)
deriving Decidable

variable {t : JobTable}

private theorem run_destroyClusterTurn_skip (s : Destroying)
    (h : s.refused = true ∨ ∀ e ∈ t, ¬ JobIn c e) :
    run (destroyClusterTurn E c) s t = some s := by
  induction t with
  | nil => rfl
  | cons e t ih =>
    have hturn : destroyClusterTurn E c s e = some s := by
      rw [destroyClusterTurn,if_pos]
      rcases h with h | h
      · exact .inl h
      · have he := h e mem_cons_self
        rw [JobIn] at he
        omega
    rw [run,hturn,bind_some]
    exact ih (h.imp_right fun h e he => h e (mem_cons_of_mem _ he))

private theorem run_destroyClusterTurn_refused {q : Qmgmt} (hjob : ∃ e ∈ t, JobIn c e)
    (hown : ∀ e ∈ t, JobIn c e → q.ownerCheck E (q.ownerOf E e.1 e.2) = false) :
    run (destroyClusterTurn E c) ⟨q,false⟩ t = some ⟨q,true⟩ := by
  induction t with
  | nil =>
    obtain ⟨e,he,-⟩ := hjob
    cases he
  | cons e' t ih =>
    by_cases he : JobIn c e'
    · have hturn : destroyClusterTurn E c ⟨q,false⟩ e' = some ⟨q,true⟩ := by
        have hcl := he.1
        have hproc := he.2
        rw [destroyClusterTurn,if_neg (by simp; omega),hown e' mem_cons_self he]
        rfl
      rw [run,hturn,bind_some]
      exact run_destroyClusterTurn_skip ⟨q,true⟩ (.inl rfl)
    · have hturn : destroyClusterTurn E c ⟨q,false⟩ e' = some ⟨q,false⟩ := by
        rw [JobIn] at he
        rw [destroyClusterTurn,if_pos (by simp; omega)]
      rw [run,hturn,bind_some]
      refine ih ?_ fun e hmem => hown e (mem_cons_of_mem _ hmem)
      obtain ⟨e,hmem,hin⟩ := hjob
      rcases List.mem_cons.mp hmem with rfl | hmem
      · exact absurd hin he
      · exact ⟨e,hmem,hin⟩

private theorem destroyCluster_refused (hs : ClusterSpared E q c) (hjobs : jobsOf q.keys c ≠ 0) :
    q.destroyCluster E c = some (q,-1) := by
  rw [Qmgmt.destroyCluster]
  split
  · rfl
  · next hc =>
    rcases hs with hs | ⟨-,hkeys⟩ | ⟨hjob,hown⟩
    · exact absurd hs hc
    · exact absurd hkeys hjobs
    · rw [run_destroyClusterTurn_refused hjob hown,bind_some]
      rfl

theorem Counted.destroyCluster (h : Counted q) (hs : ClusterSpared E q c)
    {r : Qmgmt × Int} (hr : q.destroyCluster E c = some r) : Counted r.1 := by
  rw [Qmgmt.destroyCluster] at hr
  by_cases hc : c < 1
  · rw [if_pos hc] at hr
    cases hr
    exact h
  rw [if_neg hc] at hr
  rcases hs with hs | ⟨hview,hkeys⟩ | ⟨hjob,hown⟩
  · exact absurd hs hc
  · -- no job of the cluster: only its ad goes, which is not counted
    have hnone : ∀ e ∈ q.jobQueue.committed, ¬ JobIn c e := by
      rintro e he ⟨hcl,hproc⟩
      have hk : e.1 ∈ q.keys := mem_map_of_mem he
      have hj := List.countP_eq_zero.mp hkeys e.1 hk
      simp only [ProcId.isJob,Bool.and_eq_true,bne_iff_ne,ne_eq,beq_iff_eq] at hj
      omega
    rw [run_destroyClusterTurn_skip _ (Or.inr hnone),bind_some] at hr
    simp only [Bool.false_eq_true,if_false,map_eq_some_iff] at hr
    obtain ⟨q1,hq1,rfl⟩ := hr
    have hsize : q.clusterSize c = none := by rw [h.sizes,recount,if_pos hview]
    have hclean : Counted (q.clusterCleanup c) := by
      have hsame : { q with clusterSize := update q.clusterSize c none } = q := by
        rw [← hsize,update_eq_self]
      rw [clusterCleanup,hsame]
      exact h.logOther (isJob_clusterKey c)
    exact hclean.edited (destroyMyProxyPassword_edited hq1) fun _ hop => hop.playKeys
  · rw [run_destroyClusterTurn_refused hjob hown,bind_some] at hr
    simp only [if_true] at hr
    cases hr
    exact h

theorem Counted.beginTransaction (h : Counted q) (hb : q.beginTransaction E = some q') :
    Counted q' := by
  have hk := (viewKeys_beginTransaction hb).1
  rw [Qmgmt.beginTransaction] at hb
  split at hb
  · simp at hb
  · cases hb
    exact ⟨h.sizes.trans (congrArg recount hk.symm),h.total.trans (by rw [hk]),h.nextProcNum⟩

theorem Counted.commitTransaction (h : Counted q) : Counted q.commitTransaction where
  sizes := h.sizes.trans (congrArg recount (viewKeys_commitTransaction q).symm)
  total := h.total.trans (by rw [viewKeys_commitTransaction])
  nextProcNum := h.nextProcNum

def NoJobsPending (q : Qmgmt) : Prop :=
  ∀ op ∈ q.jobQueue.pending.getD [], op.countsJob = false
deriving Decidable

theorem NoJobsPending.counts (h : NoJobsPending q) :
    recount q.viewKeys = recount q.keys ∧
      q.viewKeys.countP ProcId.isJob = q.keys.countP ProcId.isJob := by
  have hplay : ∀ (ops : List QueueOp) (ks : List ProcId), (∀ op ∈ ops, op.countsJob = false) →
      recount (ops.foldl (fun ks op => op.playKeys ks) ks) = recount ks ∧
        (ops.foldl (fun ks op => op.playKeys ks) ks).countP ProcId.isJob =
          ks.countP ProcId.isJob := by
    intro ops
    induction ops with
    | nil => exact fun ks _ => ⟨rfl,rfl⟩
    | cons op ops ih =>
      intro ks hops
      have hop := hops op mem_cons_self
      obtain ⟨h1,h2⟩ := ih (op.playKeys ks) fun o ho => hops o (mem_cons_of_mem _ ho)
      exact ⟨h1.trans (op.recount_playKeys hop ks),h2.trans (op.countP_playKeys hop ks)⟩
  rw [viewKeys,JobQueue.view,Ledger.view,keys_playAll]
  exact hplay _ _ h

theorem Counted.abortTransaction (h : Counted q) (hp : NoJobsPending q) :
    Counted q.abortTransaction where
  sizes := h.sizes.trans hp.counts.1
  total := by
    have ht := h.total
    rw [hp.counts.2] at ht
    exact ht
  nextProcNum := h.nextProcNum

theorem Counted.unsetQmgmtConnection (h : Counted q) (hp : NoJobsPending q) :
    Counted q.unsetQmgmtConnection :=
  ⟨(h.abortTransaction hp).sizes,(h.abortTransaction hp).total,le_refl _⟩

theorem Counted.connect (h : Counted q) (hp : NoJobsPending q) {p : Peer}
    (hc : q.connect E p = some q') : Counted q' := by
  have hu := h.unsetQmgmtConnection hp
  have hpeer : Counted { q.unsetQmgmtConnection with peer := some p } :=
    ⟨hu.sizes,hu.total,hu.nextProcNum⟩
  exact hpeer.beginTransaction hc

/-- What `DestroyProc` goes on to destroy is a job that is there once, or a cluster that is
spared. -/
def ProcSpared (E : Env) (q : Qmgmt) (id : ProcId) : Prop :=
  ∀ ad ∈ q.jobQueue.lookupClassAd id, q.ownerCheck E (q.ownerOf E id ad) = true →
    ∀ q1 ∈ q.stampCompletion E id (JobQueue.allAttrs q.jobQueue.committed id ad),
      q1.mayLeave E id ad = true →
      if q1.isParallel E id ad then ClusterSpared E q1 id.cluster
      else id.isJob = true ∧ id ∈ q.viewKeys
deriving Decidable

/-- What is left of the keys when a job is destroyed: the ad of its cluster goes with the last
one. -/
def keysWithout (ks : List ProcId) (id : ProcId) : List ProcId :=
  if jobsOf (ks.erase id) id.cluster = 0 then (ks.erase id).erase (clusterKey id.cluster)
  else ks.erase id

theorem Counted.destroyProc (h : Counted q) {id : ProcId} (hs : ProcSpared E q id)
    {r : Qmgmt × Int} (hr : q.destroyProc E id = some r) :
    Counted r.1 ∧ (id.isJob = true → r.2 = destroyProcSuccess →
      r.1.viewKeys = keysWithout q.viewKeys id) := by
  unfold Qmgmt.destroyProc at hr
  split at hr
  · cases hr
    exact ⟨h,fun _ hcode => absurd hcode (show destroyProcEnoent ≠ _ by decide)⟩
  · next ad had =>
    split at hr
    · cases hr
      exact ⟨h,fun _ hcode => absurd hcode (show destroyProcEacces ≠ _ by decide)⟩
    · next hown =>
      rw [bind_eq_some_iff] at hr
      obtain ⟨q1,hq1,hr⟩ := hr
      have hed := stampCompletion_edited hq1
      have hsets : ∀ op, Sets id op → ∀ ks, op.playKeys ks = ks := fun _ hop => hop.playKeys
      have h1 : Counted q1 := h.edited hed hsets
      have hview := hed.viewKeys hsets
      split at hr
      · cases hr
        exact ⟨h1,fun _ hcode => absurd hcode (show destroyProcSuccessDelay ≠ _ by decide)⟩
      · next hleave =>
        have hspared := hs ad had (by simpa using hown) q1 hq1 (by simpa using hleave)
        split at hr
        · next hpar =>
          rw [if_pos hpar] at hspared
          rw [map_eq_some_iff] at hr
          obtain ⟨r1,hr1,rfl⟩ := hr
          have hc1 : Counted r1.1 := h1.destroyCluster hspared hr1
          refine ⟨hc1,fun hj hcode => ?_⟩
          -- the job itself is in the cluster, so that the cluster is spared by a refusal
          have hm : id ∈ q1.keys := by
            rw [hed.keys hsets]
            exact Table.lookup_isSome.mp (isSome_of_eq_some had)
          have hpos : jobsOf q1.keys id.cluster ≠ 0 := fun h0 => by
            have hid := List.countP_eq_zero.mp h0 id hm
            simp [hj] at hid
          rw [destroyCluster_refused hspared hpos] at hr1
          cases hr1
          exact absurd hcode (show destroyProcError ≠ _ by decide)
        · next hpar =>
          rw [if_neg hpar] at hspared
          obtain ⟨hj,hm⟩ := hspared
          rw [← hview] at hm
          split at hr
          · rw [map_eq_some_iff] at hr
            obtain ⟨q2,hq2,rfl⟩ := hr
            obtain ⟨hc,hk⟩ := h1.removeProc hj hm hq2
            rw [hview] at hk
            exact ⟨hc,fun _ _ => hk⟩
          · rw [bind_eq_some_iff] at hr
            obtain ⟨q2,hq2,hr⟩ := hr
            rw [map_eq_some_iff] at hr
            obtain ⟨q3,hq3,rfl⟩ := hr
            have hk2 := (viewKeys_beginTransaction hq2).1
            rw [← hk2] at hm
            obtain ⟨hc,hk⟩ := (h1.beginTransaction hq2).removeProc hj hm hq3
            rw [hk2,hview] at hk
            exact ⟨hc.commitTransaction,fun _ _ => (viewKeys_commitTransaction q3).trans hk⟩

/-- The condition on a request for exact counts. -/
def Countable (E : Env) (q : Qmgmt) : Request → Prop
  | .destroyProc id => ProcSpared E q id
  | .destroyCluster c => ClusterSpared E q c
  | .abortTransaction => NoJobsPending q
  | _ => True

instance (E : Env) (q : Qmgmt) : ∀ r, Decidable (Countable E q r)
  | .destroyProc id => inferInstanceAs (Decidable (ProcSpared E q id))
  | .destroyCluster c => inferInstanceAs (Decidable (ClusterSpared E q c))
  | .abortTransaction => inferInstanceAs (Decidable (NoJobsPending q))
  | .newCluster | .newProc _ | .setAttribute .. | .setAttributeByConstraint ..
  | .setTimerAttribute .. | .deleteAttribute .. | .getAttribute .. | .beginTransaction
  | .commitTransaction => .isTrue trivial

theorem Counted.doQRequest (h : Counted q) {r : Request} (hok : Countable E q r)
    {res : Qmgmt × Int} (hr : q.doQRequest E r = some res) : Counted res.1 := by
  cases r with
  | newCluster =>
    cases hr
    exact h.newCluster
  | newProc c =>
    cases hr
    exact h.newProc c
  | destroyProc id => exact (h.destroyProc hok hr).1
  | destroyCluster c => exact h.destroyCluster hok hr
  | beginTransaction => exact h.beginTransaction (begin_of_doQRequest hr)
  | commitTransaction =>
    cases hr
    exact h.commitTransaction
  | abortTransaction =>
    cases hr
    exact h.abortTransaction hok
  | _ => exact h.edited (doQRequest_edited rfl hr) fun _ hop => hop.playKeys

/-- The loop of `InitJobQueue` with the keys that have been passed and kept and those to come. -/
structure Counting (q : Qmgmt) (kept rest : List ProcId) : Prop where
  outside : q.inTransaction = false
  keys : q.keys.Perm (kept ++ rest)
  sizes : q.clusterSize = recount kept
  total : q.totalJobsCount = kept.countP ProcId.isJob
  nextProcNum : 0 ≤ q.nextProcNum

theorem Counting.initTurn {e : ProcId × QueueAd} {kept rest : List ProcId}
    (h : Counting q kept (e.1 :: rest)) : ∃ kept', Counting (initTurn E q e) kept' rest := by
  have hmid : q.keys.Perm ((e.1 :: kept) ++ rest) := h.keys.trans perm_middle
  rw [Qmgmt.initTurn]
  cases hj : e.1.isJob with
  | false =>
    refine ⟨e.1 :: kept,?_⟩
    rw [Bool.not_false,if_pos rfl]
    exact ⟨h.outside,hmid,h.sizes.trans (recount_cons_other hj _).symm,
      h.total.trans (by rw [countP_cons_of_neg (by simp [hj])]),h.nextProcNum⟩
  | true =>
    rw [Bool.not_true,if_neg (by simp)]
    have h1 : Counting (q.raiseClusterNum e.1.cluster) kept (e.1 :: rest) := by
      rw [raiseClusterNum]
      split
      · exact ⟨h.outside,h.keys,h.sizes,h.total,h.nextProcNum⟩
      · exact h
    have h2 : Counting ((q.raiseClusterNum e.1.cluster).chainJob e.1) kept (e.1 :: rest) := by
      refine ⟨h1.outside,?_,h1.sizes,h1.total,h1.nextProcNum⟩
      exact (List.Perm.of_eq (keys_chainToCluster _ e.1)).trans h1.keys
    generalize (q.raiseClusterNum e.1.cluster).chainJob e.1 = q2 at h2
    dsimp only
    split
    · refine ⟨e.1 :: kept,h2.outside,h2.keys.trans perm_middle,?_,?_,h2.nextProcNum⟩
      · rw [recount_cons_job hj,← h2.sizes]
        rfl
      · change q2.totalJobsCount + 1 = _
        rw [h2.total,countP_cons,hj]
        simp
    · have hs := SameVars.log q2 (.destroyClassAd e.1)
      refine ⟨kept,hs.inTransaction.trans h2.outside,?_,hs.clusterSize.trans h2.sizes,
        hs.totalJobsCount.trans h2.total,hs.nextProcNum ▸ h2.nextProcNum⟩
      rw [keys_log_of_none h2.outside]
      have herase := (h2.keys.trans perm_middle).erase e.1
      rwa [erase_cons_head] at herase

theorem Counting.counted {kept : List ProcId} (h : Counting q kept []) : Counted q := by
  have hperm : q.viewKeys.Perm kept := by
    rw [viewKeys_of_none h.outside]
    simpa using h.keys
  refine ⟨?_,?_,h.nextProcNum⟩
  · rw [h.sizes]
    funext c
    rw [recount,recount,jobsOf,jobsOf,hperm.countP_eq]
  · rw [h.total,hperm.countP_eq]

theorem Counting.initLoop (es : JobTable) {kept : List ProcId} (h : Counting q kept es.keys) :
    Counted (es.foldl (Qmgmt.initTurn E) q) ∧
      (es.foldl (Qmgmt.initTurn E) q).inTransaction = false := by
  induction es generalizing q kept with
  | nil => exact ⟨h.counted,h.outside⟩
  | cons e es ih =>
    obtain ⟨kept',h'⟩ := h.initTurn (E := E)
    exact ih h'

private theorem counted_initJobQueue {settings : ClusterSettings}
    (h : initJobQueue E t settings = some q) : Counted q ∧ q.inTransaction = false := by
  rw [initJobQueue] at h
  generalize reread E t = t at h
  have hstart : Counting (withHeader t settings) []
      (withHeader t settings).jobQueue.committed.keys := by
    rw [withHeader]
    split
    · exact ⟨rfl,List.Perm.refl _,rfl,rfl,le_refl _⟩
    · exact ⟨rfl,List.Perm.refl _,rfl,rfl,le_refl _⟩
  obtain ⟨hc,hout⟩ := hstart.initLoop (E := E)
  have hnext : ∀ n, Counted { Qmgmt.initLoop E t settings with nextClusterNum := n } := fun n =>
    ⟨hc.sizes,hc.total,hc.nextProcNum⟩
  rw [initFromAds] at h
  split at h
  · cases h
    exact ⟨(hnext _).logOther rfl,(SameVars.log _ _).inTransaction.trans hout⟩
  · split at h
    · simp at h
    · cases h
      exact ⟨hnext _,hout⟩

/-- A job is destroyed once, a cluster is not destroyed with its jobs, and a transaction in which
jobs come or go is committed. -/
def Event.Countable (q : Qmgmt) : Event → Prop
  | .connect _ _ => NoJobsPending q
  | .request E r => Qmgmt.Countable E q r
  | .disconnect => NoJobsPending q

instance (q : Qmgmt) : ∀ a : Event, Decidable (a.Countable q)
  | .connect _ _ => inferInstanceAs (Decidable (NoJobsPending q))
  | .request E r => inferInstanceAs (Decidable (Qmgmt.Countable E q r))
  | .disconnect => inferInstanceAs (Decidable (NoJobsPending q))

theorem Counted.step (h : Counted q) {a : Event} (hok : a.Countable q) (hs : q.step a = some q') :
    Counted q' := by
  cases a with
  | connect E peer => exact h.connect hok hs
  | request E r =>
    rw [Qmgmt.step,map_eq_some_iff] at hs
    obtain ⟨res,hres,rfl⟩ := hs
    exact h.doQRequest hok hres
  | disconnect =>
    cases hs
    exact h.unsetQmgmtConnection hok

private theorem counted_run {settings : ClusterSettings} {q0 : Qmgmt}
    (h0 : initJobQueue E t settings = some q0) {as : List Event}
    (hok : Along Qmgmt.step (fun q a => a.Countable q) q0 as)
    (hr : run Qmgmt.step q0 as = some q) : Counted q :=
  run_invariant (fun _ _ _ hq ha hs => Counted.step hq ha hs) hok (counted_initJobQueue h0).1 hr

def jobsInQueueOrAdded (q : Qmgmt) : Nat :=
  q.keys.countP ProcId.isJob + q.jobQueue.newAdsInTransaction.countP ProcId.isJob

private theorem countP_viewKeys_le (q : Qmgmt) :
    q.viewKeys.countP ProcId.isJob ≤ q.jobsInQueueOrAdded := by
  have hplay (f : QueueOp → Option ProcId) (hf : ∀ k, f (.newClassAd k) = some k) :
      ∀ (ops : List QueueOp) (ks : List ProcId),
        (ops.foldl (fun ks op => op.playKeys ks) ks).countP ProcId.isJob ≤
          ks.countP ProcId.isJob + (ops.filterMap f).countP ProcId.isJob := by
    intro ops
    induction ops with
    | nil => exact fun ks => le_refl _
    | cons op ops ih =>
      intro ks
      rw [foldl_cons]
      have hle := ih (op.playKeys ks)
      have hrest : (ops.filterMap f).countP ProcId.isJob ≤
          ((op :: ops).filterMap f).countP ProcId.isJob :=
        ((sublist_cons_self op ops).filterMap f).countP_le
      cases op with
      | newClassAd k =>
        simp only [QueueOp.playKeys,filterMap_cons,countP_cons,hf] at hle ⊢
        omega
      | destroyClassAd k =>
        have herase : (ks.erase k).countP ProcId.isJob ≤ ks.countP ProcId.isJob :=
          List.Sublist.countP_le erase_sublist
        simp only [QueueOp.playKeys] at hle ⊢
        omega
      | setAttribute | deleteAttribute => exact hle.trans (Nat.add_le_add_left hrest _)
  rw [viewKeys,JobQueue.view,Ledger.view,keys_playAll]
  exact hplay _ (fun _ => rfl) _ _

theorem Counted.limit (h : Counted q) (hmax : E.maxJobsSubmitted ≤ q.totalJobsCount) :
    E.maxJobsSubmitted ≤ q.jobsInQueueOrAdded := by
  have hle := countP_viewKeys_le q
  have ht := h.total
  omega

private theorem Counted.newCluster_refused (h : Counted q) (hn : 1 ≤ q.nextClusterNum)
    (hr : (q.newCluster E).2 = -2) : E.maxJobsSubmitted ≤ q.jobsInQueueOrAdded := by
  rcases newCluster_cases E q with h' | ⟨hmax,-⟩ | h' | h'
  · simp [h'] at hr
  · exact h.limit hmax
  · simp [h'] at hr
  · simp only [h'] at hr
    omega

private theorem Counted.newProc_refused (h : Counted q) (hr : (q.newProc E c).2 = -2) :
    E.maxJobsSubmitted ≤ q.jobsInQueueOrAdded := by
  have hp := h.nextProcNum
  rcases newProc_cases E q c with h' | ⟨hmax,-⟩ | ⟨-,-,h'⟩
  · simp [h'] at hr
  · exact h.limit hmax
  · simp only [h'] at hr
    omega

private theorem wrapClusterNum_pos (s : ClusterSettings) {n : Int}
    (hn : 1 ≤ n) : 1 ≤ wrapClusterNum s n := by
  rw [wrapClusterNum]
  split
  · exact s.initial_pos
  · exact hn

private theorem nextClusterNum_step {a : Event} (hn : 1 ≤ q.nextClusterNum)
    (hs : q.step a = some q') :
    1 ≤ q'.nextClusterNum := by
  cases a with
  | connect E peer =>
    have hsame : SameNums { q.unsetQmgmtConnection with peer := some peer } q' :=
      SameNums.beginTransaction hs
    rw [hsame.nextClusterNum]
    exact hn
  | disconnect =>
    cases hs
    exact hn
  | request E r =>
    rw [step,map_eq_some_iff] at hs
    obtain ⟨res,hres,rfl⟩ := hs
    by_cases hc : r = .newCluster
    · subst hc
      cases hres
      have hinc := q.settings.increment_pos
      rcases newCluster_cases E q with h' | ⟨-,h'⟩ | h' | h' <;> rw [h']
      · exact hn
      · exact hn
      · exact wrapClusterNum_pos _ (by omega)
      · exact wrapClusterNum_pos _ (by omega)
    · by_cases hp : ∃ c, r = .newProc c
      · obtain ⟨c,rfl⟩ := hp
        cases hres
        rcases newProc_cases E q c with h' | ⟨-,h'⟩ | ⟨-,-,h'⟩ <;> rw [h'] <;> exact hn
      · exact (SameNums.doQRequest hc (fun c he => hp ⟨c,he⟩) hres).nextClusterNum ▸ hn

/-- The counters are exact when a connection ends, a submission is refused only for too many jobs,
and the ad of a cluster goes with its last job. -/
theorem counters_exact {E0 : Env} {t : JobTable} {settings : ClusterSettings} {q₀ : Qmgmt}
    (h0 : initJobQueue E0 t settings = some q₀) (hn : 1 ≤ q₀.nextClusterNum) {as : List Event}
    (hok : Along step (fun q a => a.Countable q) q₀ as) {q : Qmgmt} (hr : run step q₀ as = some q) :
    (NoJobsPending q → q.disconnect.clusterSize = recount q.disconnect.keys ∧
      q.disconnect.totalJobsCount = q.disconnect.keys.countP ProcId.isJob) ∧
    (∀ E : Env, (q.newCluster E).2 = -2 → E.maxJobsSubmitted ≤ q.jobsInQueueOrAdded) ∧
    (∀ (E : Env) (c : Int), (q.newProc E c).2 = -2 →
      E.maxJobsSubmitted ≤ q.jobsInQueueOrAdded) ∧
    ∀ (E : Env) (id : ProcId) (q' : Qmgmt), id.isJob = true → ProcSpared E q id →
      q.destroyProc E id = some (q',destroyProcSuccess) →
      q'.viewKeys = keysWithout q.viewKeys id := by
  have hcount := counted_run h0 hok hr
  have hpos : 1 ≤ q.nextClusterNum :=
    run_preserves (fun _ _ _ hq hs => nextClusterNum_step hq hs) hn hr
  refine ⟨fun hp => ?_,fun E => hcount.newCluster_refused hpos,
    fun E c => hcount.newProc_refused,fun E id q' hj hs hd => ?_⟩
  · have hdis := hcount.unsetQmgmtConnection hp
    exact ⟨hdis.sizes,hdis.total⟩
  · exact (hcount.destroyProc hs hd).2 hj rfl

def submitAndDestroy : List Event :=
  [.connect plainEnv (plainPeer (cstr "alice")),
    .request plainEnv .newCluster,
    .request plainEnv (.newProc 1),
    .request plainEnv (.newProc 1),
    .request plainEnv (.setAttribute ⟨1,0⟩ (some (cstr "JobFinishedHookDone")) (some (cstr "1"))
      noFlags),
    .request plainEnv .commitTransaction,
    .request plainEnv (.destroyProc ⟨1,0⟩)]

theorem counters_exact_submitAndDestroy :
    ∃ q₀ q, initJobQueue plainEnv [] plainSettings = some q₀ ∧
      run step q₀ submitAndDestroy = some q ∧ q.disconnect.totalJobsCount = 1 ∧
      q.disconnect.clusterSize = recount q.disconnect.keys := by
  have h : (initJobQueue plainEnv [] plainSettings).any (fun q₀ =>
      decide (1 ≤ q₀.nextClusterNum) &&
        decide (Along step (fun q a => a.Countable q) q₀ submitAndDestroy) &&
        (run step q₀ submitAndDestroy).any fun q =>
          decide (NoJobsPending q) && q.disconnect.totalJobsCount == 1) = true := by
    decide
  obtain ⟨q₀,h0,h⟩ := (Option.any_eq_true _ _).mp h
  simp only [Bool.and_eq_true,decide_eq_true_eq,Option.any_eq_true,beq_iff_eq] at h
  obtain ⟨⟨hn,hok⟩,q,hr,hp,hone⟩ := h
  exact ⟨q₀,q,h0,hr,hone,((counters_exact h0 hn hok hr).1 hp).1⟩

/-- A client that makes a job and hangs up leaves it counted. -/
theorem counters_wrong_after_hangup :
    ∃ q₀ q, initJobQueue plainEnv [] plainSettings = some q₀ ∧
      run step q₀ [.connect plainEnv (plainPeer (cstr "alice")),.request plainEnv .newCluster,
        .request plainEnv (.newProc 1),.disconnect] = some q ∧
      q.keys.countP ProcId.isJob = 0 ∧ q.totalJobsCount = 1 ∧ q.clusterSize 1 = some 1 := by
  have h : (initJobQueue plainEnv [] plainSettings).any (fun q₀ =>
      (run step q₀ [.connect plainEnv (plainPeer (cstr "alice")),.request plainEnv .newCluster,
        .request plainEnv (.newProc 1),.disconnect]).any fun q =>
          q.keys.countP ProcId.isJob == 0 && q.totalJobsCount == 1 && q.clusterSize 1 == some 1) =
      true := by
    decide
  obtain ⟨q₀,h0,h⟩ := (Option.any_eq_true _ _).mp h
  simp only [Bool.and_eq_true,Option.any_eq_true,beq_iff_eq] at h
  obtain ⟨q,hr,⟨h1,h2⟩,h3⟩ := h
  exact ⟨q₀,q,h0,hr,h1,h2,h3⟩

end Qmgmt

end Condor.Schedd
