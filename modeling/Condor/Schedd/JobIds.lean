import Condor.Schedd.ClusterNumbers

/-!
# Job ids are not used twice

An id is in use while its ad is committed or was made in the transaction.
-/

namespace Condor.Schedd

open Lib List Option

namespace Qmgmt

def InUse (q : Qmgmt) (id : ProcId) : Prop := id ∈ q.keys ∨ id ∈ q.newAds
deriving Decidable

variable {E : Env} {q q' : Qmgmt}

variable {id : ProcId}

private theorem InUse.of_shrunk (hs : Shrunk q q') (h : q'.InUse id) : q.InUse id :=
  h.imp (fun hk => hs.keys hk) fun hn => hs.newAds hn

private theorem viewKeys_inUse (h : id ∈ q.viewKeys) : q.InUse id := by
  have hplay (f : QueueOp → Option ProcId) (hf : ∀ k, f (.newClassAd k) = some k) :
      ∀ (ops : List QueueOp) (ks : List ProcId),
        id ∈ ops.foldl (fun ks op => op.playKeys ks) ks → id ∈ ks ∨ id ∈ ops.filterMap f := by
    intro ops
    induction ops with
    | nil => exact fun ks hid => .inl hid
    | cons op ops ih =>
      intro ks hid
      rw [foldl_cons] at hid
      rcases ih _ hid with hk | hn
      · cases op with
        | newClassAd k =>
          rcases List.mem_cons.mp hk with rfl | hk
          · exact .inr (by simp [hf])
          · exact .inl hk
        | destroyClassAd k => exact .inl (mem_of_mem_erase hk)
        | setAttribute | deleteAttribute => exact .inl hk
      · right
        rw [filterMap_cons]
        split
        · exact hn
        · exact mem_cons_of_mem _ hn
  rw [viewKeys,JobQueue.view,Ledger.view,keys_playAll] at h
  exact hplay _ (fun _ => rfl) _ _ h

private theorem inUse_of_none (h : q.inTransaction = false) : q.InUse id ↔ id ∈ q.keys := by
  rw [InUse,newAds_of_none h]
  simp

private theorem InUse.of_log {op : QueueOp} (h : (q.log op).InUse id) :
    op = .newClassAd id ∨ q.InUse id := by
  cases hin : q.inTransaction with
  | true =>
    rcases h with hk | hn
    · rw [keys_log_of_transaction hin] at hk
      exact .inr (.inl hk)
    · obtain ⟨ops,hops⟩ := Option.isSome_iff_exists.mp hin
      rw [newAds,JobQueue.newAdsInTransaction,log,JobQueue.append,Ledger.append,hops] at hn
      simp only [getD_some,filterMap_append,mem_append] at hn
      rcases hn with hn | hn
      · refine .inr (.inr ?_)
        rw [newAds,JobQueue.newAdsInTransaction,hops]
        exact hn
      · left
        cases op with
        | newClassAd k =>
          obtain rfl : id = k := by simpa using hn
          rfl
        | destroyClassAd | setAttribute | deleteAttribute => simp at hn
  | false =>
    have hout : (q.log op).inTransaction = false := (SameVars.log q op).inTransaction.trans hin
    rw [inUse_of_none hout,← viewKeys_of_none hout,viewKeys_log,viewKeys_of_none hin] at h
    cases op with
    | newClassAd k =>
      rcases List.mem_cons.mp h with rfl | h
      · exact .inl rfl
      · exact .inr (.inl h)
    | destroyClassAd k => exact .inr (.inl (mem_of_mem_erase h))
    | setAttribute | deleteAttribute => exact .inr (.inl h)

private theorem InUse.of_commit (h : q.commitTransaction.InUse id) : q.InUse id := by
  rw [inUse_of_none rfl,keys_commitTransaction] at h
  exact viewKeys_inUse h

private theorem InUse.of_abort (h : q.abortTransaction.InUse id) : q.InUse id := by
  rw [inUse_of_none rfl] at h
  exact .inl h

private theorem InUse.of_begin (hb : q.beginTransaction E = some q') (h : q'.InUse id) :
    q.InUse id := by
  rw [beginTransaction] at hb
  split at hb
  · simp at hb
  · cases hb
    rcases h with hk | hn
    · exact .inl hk
    · exact absurd hn (by simp [newAds,JobQueue.newAdsInTransaction,Ledger.start])

private theorem InUse.of_logCluster (h : q.logCluster.InUse id) :
    id = clusterKey q.activeClusterNum ∨ q.InUse id := by
  rcases h.of_log with he | h
  · cases he
    exact .inl rfl
  · rcases h.of_log with he | h
    · cases he
    · exact .inr h

private theorem InUse.of_logProc (h : (q.logProc E).InUse id) :
    id = q.nextProc ∨ q.InUse id := by
  rcases h.of_log with he | h
  · cases he
  · rcases InUse.of_log (q := { q with nextProcNum := q.nextProcNum + 1 }) h with he | h
    · cases he
      exact .inl rfl
    · exact .inr h

/-- Ads other than the header ad that the loop of `InitJobQueue` passes over. -/
def NoJob (id : ProcId) : Prop := NotHeader id ∧ id.isJob = false

instance : DecidablePred NoJob := fun id =>
  inferInstanceAs (Decidable (NotHeader id ∧ id.isJob = false))

structure Distinct (q : Qmgmt) : Prop where
  nextProcNum : 0 ≤ q.nextProcNum
  procs : 1 ≤ q.activeClusterNum →
    ∀ id, q.InUse id → id.cluster = q.activeClusterNum → id.proc < q.nextProcNum
  active : q.settings.maximum = 0 → 1 ≤ q.activeClusterNum → q.activeClusterNum < q.nextClusterNum
  clusters : q.settings.maximum = 0 →
    ∀ id, q.InUse id → NotHeader id → id.cluster < q.nextClusterNum
  stored : q.settings.maximum = 0 → Numbered NoJob 1 q

theorem Distinct.shrunk (h : Distinct q) (hu : ∀ id, q'.InUse id → q.InUse id)
    (hn : SameNums q q') (hs : q.settings.maximum = 0 → Numbered NoJob 1 q') : Distinct q' where
  nextProcNum := hn.nextProcNum ▸ h.nextProcNum
  procs := by
    rw [hn.activeClusterNum,hn.nextProcNum]
    exact fun ha id hid => h.procs ha id (hu id hid)
  active := by
    rw [hn.settings,hn.activeClusterNum,hn.nextClusterNum]
    exact h.active
  clusters := by
    rw [hn.settings,hn.nextClusterNum]
    exact fun hmax id hid => h.clusters hmax id (hu id hid)
  stored := by
    rw [hn.settings]
    exact hs

/-- The number next in line is that of no cluster with an ad. -/
def NextUnused (q : Qmgmt) : Prop :=
  (∀ id ∈ q.keys, id.cluster ≠ q.nextClusterNum) ∧ ∀ id ∈ q.newAds, id.cluster ≠ q.nextClusterNum
deriving Decidable

theorem NextUnused.ne (h : q.NextUnused) (hu : q.InUse id) :
    id.cluster ≠ q.nextClusterNum :=
  hu.elim (h.1 id) (h.2 id)

theorem Distinct.pos (h : Distinct q) (hmax : q.settings.maximum = 0) : 1 ≤ q.nextClusterNum := by
  obtain ⟨n,-,h1,h2,-⟩ := (h.stored hmax).1
  omega

private theorem Distinct.nextUnused (h : Distinct q)
    (hmax : q.settings.maximum = 0) : q.NextUnused := by
  have hne : ∀ id, q.InUse id → id.cluster ≠ q.nextClusterNum := by
    intro id hid he
    have hpos := h.pos hmax
    by_cases hh : NotHeader id
    · have hlt := h.clusters hmax id hid hh
      omega
    · obtain rfl : id = headerKey := by simpa [NotHeader] using hh
      change (0 : Int) = _ at he
      omega
  exact ⟨fun id hid => hne id (.inl hid),fun id hid => hne id (.inr hid)⟩

theorem Distinct.takeClusterNum (h : Distinct q) (hun : q.NextUnused) {q' : Qmgmt}
    (hq : SameNums q.takeClusterNum q')
    (hu : ∀ id, q'.InUse id → id = clusterKey q.nextClusterNum ∨ q.InUse id)
    (hs : q.settings.maximum = 0 → Numbered NoJob 1 q') : Distinct q' := by
  have hinc := q.settings.increment_pos
  have hnext : q.settings.maximum = 0 →
      q'.nextClusterNum = q.nextClusterNum + q.settings.increment := fun hmax =>
    hq.nextClusterNum.trans (wrapClusterNum_none hmax _)
  have hactive : q'.activeClusterNum = q.nextClusterNum := hq.activeClusterNum
  have hset : q'.settings = q.settings := hq.settings
  refine ⟨?_,?_,?_,?_,?_⟩
  · rw [hq.nextProcNum]
    exact le_refl _
  · intro _ id hid hcl
    rw [hq.nextProcNum]
    rw [hactive] at hcl
    rcases hu id hid with rfl | hid
    · change (-1 : Int) < 0
      decide
    · exact absurd hcl (hun.ne hid)
  · intro hmax _
    rw [hset] at hmax
    rw [hactive,hnext hmax]
    omega
  · intro hmax id hid hne
    rw [hset] at hmax
    rw [hnext hmax]
    rcases hu id hid with rfl | hid
    · change q.nextClusterNum < _
      omega
    · have hlt := h.clusters hmax id hid hne
      omega
  · rw [hset]
    exact hs

theorem Distinct.newCluster (h : Distinct q) (hun : q.NextUnused) :
    Distinct (q.newCluster E).1 := by
  have hs : q.settings.maximum = 0 → Numbered NoJob 1 (q.newCluster E).1 := fun hmax =>
    (h.stored hmax).newCluster q.settings.increment_pos hmax
  rcases newCluster_cases E q with h' | ⟨-,h'⟩ | h' | h' <;> rw [h'] at hs ⊢
  · exact h
  · exact h
  · exact h.takeClusterNum hun (.refl _) (fun id hid => .inr hid) hs
  · refine h.takeClusterNum hun ⟨rfl,rfl,rfl,rfl,rfl⟩ (fun id hid => ?_) hs
    exact hid.of_logCluster

theorem Distinct.newProc (h : Distinct q) (c : Int) : Distinct (q.newProc E c).1 := by
  have hnj : 1 ≤ q.activeClusterNum → ¬ NoJob q.nextProc := by
    rintro ha ⟨-,hj⟩
    have hproc := h.nextProcNum
    have hjob : q.nextProc.isJob = true := by
      rw [ProcId.isJob]
      have h1 : q.nextProc.cluster ≠ 0 := fun he => absurd ha (by
        change q.activeClusterNum = 0 at he
        omega)
      have h2 : q.nextProc.proc ≠ -1 := fun he => absurd hproc (by
        change q.nextProcNum = -1 at he
        omega)
      simp [h1,h2]
    rw [hjob] at hj
    simp at hj
  rcases newProc_cases E q c with h' | ⟨-,h'⟩ | ⟨-,ha,h'⟩ <;> rw [h']
  · exact h
  · exact h
  · have hproc := h.nextProcNum
    refine ⟨?_,?_,h.active,?_,?_⟩
    · change 0 ≤ q.nextProcNum + 1
      omega
    · intro _ id hid hcl
      change id.proc < q.nextProcNum + 1
      rcases hid.of_logProc with rfl | hid
      · exact Int.lt_succ _
      · have hlt := h.procs ha id hid hcl
        omega
    · intro hmax id hid hne
      rcases hid.of_logProc with rfl | hid
      · exact h.active hmax ha
      · exact h.clusters hmax id hid hne
    · intro hmax
      exact (h.stored hmax).logProc ha fun hp => absurd hp (hnj ha)

/-- With a maximum, where the counter wraps, a cluster is made only under a number that is not
in use. -/
def Fresh (q : Qmgmt) : Request → Prop
  | .newCluster => q.settings.maximum = 0 ∨ q.NextUnused
  | r => r.SparesHeader

instance (q : Qmgmt) : ∀ r : Request, Decidable (q.Fresh r)
  | .newCluster => inferInstanceAs (Decidable (q.settings.maximum = 0 ∨ q.NextUnused))
  | .destroyProc id | .setAttribute id .. | .setTimerAttribute id .. | .deleteAttribute id _ =>
    inferInstanceAs (Decidable (id.cluster ≠ 0))
  | .newProc _ | .destroyCluster _ | .setAttributeByConstraint .. | .getAttribute ..
  | .beginTransaction | .commitTransaction | .abortTransaction => .isTrue trivial

private theorem Distinct.unused (h : Distinct q) (hf : q.Fresh .newCluster) : q.NextUnused :=
  hf.elim h.nextUnused id

theorem Fresh.sparesHeader {r : Request} (h : q.Fresh r) : r.SparesHeader := by
  cases r with
  | newCluster => exact trivial
  | _ => exact h

/-- The other requests put no id into use. -/
private theorem inUse_of_doQRequest {r : Request} (hf : r.SparesHeader) (hc : r ≠ .newCluster)
    (hp : ∀ c, r ≠ .newProc c) {res : Qmgmt × Int} (hr : q.doQRequest E r = some res)
    (hid : res.1.InUse id) : q.InUse id := by
  by_cases hb : r = .beginTransaction
  · subst hb
    exact InUse.of_begin (begin_of_doQRequest hr) hid
  by_cases hcommit : r = .commitTransaction
  · subst hcommit
    cases hr
    exact hid.of_commit
  by_cases ha : r = .abortTransaction
  · subst ha
    cases hr
    exact hid.of_abort
  · exact hid.of_shrunk (Shrunk.doQRequest hf hc hp hb hcommit ha hr)

theorem Distinct.doQRequest (h : Distinct q) {r : Request} (hf : q.Fresh r) {res : Qmgmt × Int}
    (hr : q.doQRequest E r = some res) : Distinct res.1 := by
  by_cases hc : r = .newCluster
  · subst hc
    cases hr
    exact h.newCluster (h.unused hf)
  by_cases hp : ∃ c, r = .newProc c
  · obtain ⟨c,rfl⟩ := hp
    cases hr
    exact h.newProc c
  have hp' : ∀ c, r ≠ .newProc c := fun c he => hp ⟨c,he⟩
  have hnums := SameNums.doQRequest hc hp' hr
  have hstored : q.settings.maximum = 0 → Numbered NoJob 1 res.1 := fun hmax =>
    (h.stored hmax).doQRequest q.settings.increment_pos hmax hf.sparesHeader
      (fun c he => absurd he (hp' c)) hr
  exact h.shrunk (fun id hid => inUse_of_doQRequest hf.sparesHeader hc hp' hr hid) hnums hstored

theorem Distinct.unsetQmgmtConnection (h : Distinct q) : Distinct q.unsetQmgmtConnection where
  nextProcNum := le_refl _
  procs := fun ha => absurd ha (show ¬ (1 : Int) ≤ -1 by decide)
  active := fun _ ha => absurd ha (show ¬ (1 : Int) ≤ -1 by decide)
  clusters := fun hmax id hid => h.clusters hmax id (InUse.of_abort (q := q) hid)
  stored := fun hmax => (h.stored hmax).unsetQmgmtConnection

/-- There is no transaction left to abort. -/
private theorem disconnect_eq (q : Qmgmt) : q.disconnect = q.unsetQmgmtConnection := by
  rw [disconnect,abortTransactionAndRecomputeClusters]
  exact if_neg (by simp [inTransaction,Qmgmt.unsetQmgmtConnection,Qmgmt.abortTransaction,
    Ledger.abort])

theorem Distinct.step (h : Distinct q) {a : Event} (hf : ∀ E r, a = .request E r → q.Fresh r)
    (hs : q.step a = some q') : Distinct q' := by
  cases a with
  | connect E peer =>
    have hu := h.unsetQmgmtConnection
    have hpeer : Distinct { q.unsetQmgmtConnection with peer := some peer } :=
      ⟨hu.nextProcNum,hu.procs,hu.active,hu.clusters,hu.stored⟩
    exact hpeer.shrunk (fun id hid => InUse.of_begin hs hid) (.beginTransaction hs)
      fun hmax => (hpeer.stored hmax).beginTransaction hs
  | request E r =>
    rw [Qmgmt.step,map_eq_some_iff] at hs
    obtain ⟨res,hres,rfl⟩ := hs
    exact h.doQRequest (hf E r rfl) hres
  | disconnect =>
    cases hs
    rw [disconnect_eq]
    exact h.unsetQmgmtConnection

/-- The counter has not come round: it is ahead of every number in use and of the active one. -/
structure CounterAhead (q : Qmgmt) : Prop where
  active : 1 ≤ q.activeClusterNum → q.activeClusterNum < q.nextClusterNum
  clusters : ∀ id, q.InUse id → id.cluster < q.nextClusterNum

/-- A `NewCluster` at which the counter does not start again from the initial value. -/
def Unwrapped (q : Qmgmt) : Request → Prop
  | .newCluster => 0 < q.settings.maximum →
    q.nextClusterNum + q.settings.increment ≤ q.settings.maximum
  | r => r.SparesHeader

theorem CounterAhead.fresh (h : CounterAhead q) {r : Request} (hr : q.Unwrapped r) :
    q.Fresh r := by
  cases r with
  | newCluster =>
    exact .inr ⟨fun id hid => (h.clusters id (.inl hid)).ne,
      fun id hid => (h.clusters id (.inr hid)).ne⟩
  | _ => exact hr

theorem CounterAhead.doQRequest (h : CounterAhead q) {r : Request} (hr : q.Unwrapped r)
    {res : Qmgmt × Int} (hres : q.doQRequest E r = some res) : CounterAhead res.1 := by
  by_cases hc : r = .newCluster
  · subst hc
    cases hres
    have hinc := q.settings.increment_pos
    have hnext : q.takeClusterNum.nextClusterNum = q.nextClusterNum + q.settings.increment :=
      if_neg fun hwrap => absurd (hr hwrap.1) (not_le.mpr hwrap.2)
    have htaken : ∀ q', SameNums q.takeClusterNum q' →
        (∀ id, q'.InUse id → id = clusterKey q.nextClusterNum ∨ q.InUse id) → CounterAhead q' := by
      intro q' hq hu
      have hq' := hq.nextClusterNum.trans hnext
      refine ⟨fun _ => ?_,fun id hid => ?_⟩
      · have hactive : q'.activeClusterNum = q.nextClusterNum := hq.activeClusterNum
        omega
      · rcases hu id hid with rfl | hid
        · change q.nextClusterNum < _
          omega
        · have hlt := h.clusters id hid
          omega
    change CounterAhead (q.newCluster E).1
    rcases newCluster_cases E q with h' | ⟨-,h'⟩ | h' | h' <;> rw [h']
    · exact h
    · exact h
    · exact htaken _ (.refl _) fun id hid => .inr hid
    · exact htaken _ ⟨rfl,rfl,rfl,rfl,rfl⟩ fun id hid => hid.of_logCluster
  by_cases hp : ∃ c, r = .newProc c
  · obtain ⟨c,rfl⟩ := hp
    cases hres
    rcases newProc_cases E q c with h' | ⟨-,h'⟩ | ⟨-,ha,h'⟩ <;> rw [h']
    · exact h
    · exact h
    · refine ⟨h.active,fun id hid => ?_⟩
      rcases hid.of_logProc with rfl | hid
      · exact h.active ha
      · exact h.clusters id hid
  have hp' : ∀ c, r ≠ .newProc c := fun c he => hp ⟨c,he⟩
  have hspare : r.SparesHeader := (h.fresh hr).sparesHeader
  have hnums := SameNums.doQRequest hc hp' hres
  constructor
  · rw [hnums.activeClusterNum,hnums.nextClusterNum]
    exact h.active
  · rw [hnums.nextClusterNum]
    exact fun id hid => h.clusters id (inUse_of_doQRequest hspare hc hp' hres hid)

theorem CounterAhead.step (h : CounterAhead q) {a : Event}
    (hr : ∀ E r, a = .request E r → q.Unwrapped r) (hs : q.step a = some q') : CounterAhead q' := by
  have hunset : CounterAhead q.unsetQmgmtConnection :=
    ⟨fun ha => absurd ha (show ¬ (1 : Int) ≤ -1 by decide),
      fun id hid => h.clusters id (InUse.of_abort (q := q) hid)⟩
  cases a with
  | connect E peer =>
    have hpeer : CounterAhead { q.unsetQmgmtConnection with peer := some peer } :=
      ⟨hunset.active,hunset.clusters⟩
    have hn : SameNums { q.unsetQmgmtConnection with peer := some peer } q' := .beginTransaction hs
    constructor
    · rw [hn.activeClusterNum,hn.nextClusterNum]
      exact hpeer.active
    · rw [hn.nextClusterNum]
      exact fun id hid => hpeer.clusters id (InUse.of_begin hs hid)
  | request E r =>
    rw [Qmgmt.step,map_eq_some_iff] at hs
    obtain ⟨res,hres,rfl⟩ := hs
    exact h.doQRequest (hr E r rfl) hres
  | disconnect =>
    cases hs
    rw [disconnect_eq]
    exact hunset

theorem counterAhead_start {s : ClusterSettings} (h : initJobQueue E [] s = some q) :
    CounterAhead q := by
  have hst := started_initJobQueue h
  obtain ⟨q0,hq0,hkeys,-,hnext,-⟩ := initJobQueue_nil E s
  obtain rfl : q = q0 := some.inj (h.symm.trans hq0)
  refine ⟨fun ha => ?_,fun id hid => ?_⟩
  · rw [hst.activeClusterNum] at ha
    exact absurd ha (by decide)
  · rw [inUse_of_none hst.outside,hkeys,mem_singleton] at hid
    obtain rfl := hid
    rw [hnext,wrapClusterNum]
    have hpos := s.initial_pos
    change (0 : Int) < _
    split <;> omega

/-- With a maximum, too, no number comes back before the counter wraps. -/
theorem fresh_of_unwrapped (h : CounterAhead q) {as : List Event}
    (hok : Along Qmgmt.step (fun q a => ∀ E r, a = .request E r → q.Unwrapped r) q as) :
    Along Qmgmt.step (fun q a => ∀ E r, a = .request E r → q.Fresh r) q as := by
  induction as generalizing q with
  | nil => trivial
  | cons a as ih =>
    exact ⟨fun E r he => h.fresh (hok.1 E r he),fun q' hs => ih (h.step hok.1 hs) (hok.2 q' hs)⟩

/-- A start without a maximum after one with a maximum finds the number of the header ad ahead of
the clusters without jobs. -/
def Countless (t : JobTable) (last : Option ClusterSettings) (s : ClusterSettings) : Prop :=
  s.maximum = 0 → last.isNone = true ∨ (∃ l ∈ last, l.maximum = 0) ∨
    ∃ n ∈ headerNum t, 1 ≤ n ∧ ∀ id ∈ t.keys, NoJob id → id.cluster + 1 ≤ n
deriving Decidable

/-- What `InitJobQueue` chooses when the header ad has a number: it is ahead of all jobs, or the
schedd does not start. -/
theorem started_of_stored {t : JobTable} {s : ClusterSettings} {n : Int}
    (hn : headerNum t = some n) (hmax : s.maximum = 0) (hpos : 1 ≤ n)
    (h : initJobQueue E t s = some q) :
    q.nextClusterNum = n ∧ headerNum q.jobQueue.committed = some n ∧ q.keys ⊆ t.keys ∧
      ∀ id ∈ t.keys, id.isJob = true → id.cluster < n := by
  rw [← headerNum_reread E t] at hn
  rw [← keys_reread E t]
  have hw := headerNum_withHeader s hn
  have hloop := looped_initLoop E (reread E t) s
  rw [hw] at hloop
  rw [initJobQueue,initFromAds,storedClusterNum_eq hn hmax,wrapClusterNum_none hmax,
    if_neg (by omega)] at h
  split at h
  · simp at h
  · next hle =>
    cases h
    refine ⟨rfl,(hloop.header rfl).trans hn,hloop.keys rfl,fun id hid hj => ?_⟩
    obtain ⟨e,he,rfl⟩ := List.mem_map.mp hid
    have hlt := hloop.ahead e he hj
    omega

theorem Started.distinct {t : JobTable} {s : ClusterSettings} (h : Started t s q)
    (hs : s.maximum = 0 → StoredIn NoJob 1 q.nextClusterNum q.jobQueue.committed ∧
      ∀ id ∈ q.keys, NotHeader id → id.cluster < q.nextClusterNum) : Distinct q := by
  have ha : ¬ 1 ≤ q.activeClusterNum := by
    rw [h.activeClusterNum]
    decide
  rw [← h.settings_eq] at hs
  refine ⟨h.nextProcNum.ge,fun h1 => absurd h1 ha,fun _ h1 => absurd h1 ha,?_,?_⟩
  · intro hmax id hid
    rw [inUse_of_none h.outside] at hid
    exact (hs hmax).2 id hid
  · exact fun hmax => numbered_of_committed h.outside (hs hmax).1

private theorem newCluster_result (E : Env) (q : Qmgmt) :
    (q.newCluster E).2 = -1 ∨ (q.newCluster E).2 = -2 ∨
      ((q.newCluster E).1.activeClusterNum = q.nextClusterNum ∧
        ((q.newCluster E).2 = -3 ∨ (q.newCluster E).2 = q.nextClusterNum)) := by
  rcases newCluster_cases E q with h' | ⟨-,h'⟩ | h' | h' <;> rw [h']
  · exact .inl rfl
  · exact .inr (.inl rfl)
  · exact .inr (.inr ⟨rfl,.inl rfl⟩)
  · exact .inr (.inr ⟨rfl,.inr rfl⟩)

private theorem newProc_made {c : Int} (h : 0 ≤ (q.newProc E c).2) :
    c = q.activeClusterNum ∧ 1 ≤ q.activeClusterNum ∧ (q.newProc E c).2 = q.nextProcNum := by
  rcases newProc_cases E q c with h' | ⟨-,h'⟩ | ⟨hc,ha,h'⟩ <;> rw [h'] at h ⊢
  · simp at h
  · simp at h
  · exact ⟨hc,ha,rfl⟩

end Qmgmt

namespace World

open Qmgmt

def Unique : World → Prop
  | down t none => t = []
  | down t (some s) => s.maximum = 0 → ∃ next, StoredIn NoJob 1 next t
  | up q => Distinct q

def Event.Fresh : World → Event → Prop
  | down t last, .start _ settings => Countless t last settings
  | up q, .queue (.request _ r) => q.Fresh r
  | _, _ => True

instance : ∀ (w : World) (a : Event), Decidable (a.Fresh w)
  | down t last, .start _ settings => inferInstanceAs (Decidable (Countless t last settings))
  | up q, .queue (.request _ r) => inferInstanceAs (Decidable (q.Fresh r))
  | down _ _, .queue _ | down _ _, .crash | up _, .start _ _ | up _, .queue (.connect _ _)
  | up _, .queue .disconnect | up _, .crash => .isTrue trivial

theorem Unique.start {t : JobTable} {last : Option ClusterSettings} (h : Unique (down t last))
    {E : Env} {s : ClusterSettings} (hc : Countless t last s) {q : Qmgmt}
    (hq : initJobQueue E t s = some q) : Distinct q := by
  have hst := started_initJobQueue hq
  refine hst.distinct fun hmax => ?_
  have hstored : last.isNone = true ∨ ∃ next, StoredIn NoJob 1 next t := by
    rcases hc hmax with hnone | ⟨l,hl,hlmax⟩ | ⟨n,hn,h1,hids⟩
    · exact .inl hnone
    · obtain rfl : last = some l := hl
      exact .inr (h hlmax)
    · exact .inr ⟨n,n,hn,h1,le_refl n,hids⟩
  rcases hstored with hnone | ⟨next,n,hn,h1,-,hids⟩
  · obtain rfl : last = none := by simpa using hnone
    obtain rfl : t = [] := h
    obtain ⟨q0,hq0,hkeys,-,hnext,hnum⟩ := initJobQueue_nil E s
    obtain rfl : q = q0 := some.inj (hq.symm.trans hq0)
    have hinit := s.initial_pos
    have hhead : ∀ id ∈ q.keys, ¬ NotHeader id := by
      intro id hid hne
      rw [hkeys,mem_singleton] at hid
      exact hne hid
    refine ⟨⟨q.nextClusterNum,hnum,?_,le_refl _,fun id hid hnj => absurd hnj.1 (hhead id hid)⟩,
      fun id hid hne => absurd hne (hhead id hid)⟩
    rw [hnext,wrapClusterNum_none hmax]
    exact hinit
  · obtain ⟨hnext,hnum,hkeys,hjobs⟩ := started_of_stored hn hmax h1 hq
    refine ⟨⟨n,hnum,h1,hnext.ge,fun id hid => hids id (hkeys hid)⟩,fun id hid hne => ?_⟩
    rw [hnext]
    cases hj : id.isJob with
    | true => exact hjobs id (hkeys hid) hj
    | false => exact hids id (hkeys hid) ⟨hne,hj⟩

theorem Unique.crash {q : Qmgmt} (h : Distinct q) :
    Unique (down q.jobQueue.committed (some q.settings)) :=
  fun hmax => ⟨q.nextClusterNum,(h.stored hmax).1⟩

theorem Unique.step {w w' : World} {a : Event} (h : Unique w) (hok : a.Fresh w)
    (hs : w.step a = some w') : Unique w' := by
  cases w with
  | down t last =>
    cases a with
    | start E s =>
      rw [World.step,map_eq_some_iff] at hs
      obtain ⟨q,hq,rfl⟩ := hs
      exact h.start hok hq
    | queue | crash => simp [World.step] at hs
  | up q =>
    cases a with
    | start E s => simp [World.step] at hs
    | queue a =>
      dsimp only [World.step] at hs
      split at hs
      · next q' hq' =>
        cases hs
        refine Distinct.step h ?_ hq'
        rintro E r rfl
        exact hok
      · cases hs
        exact Unique.crash h
    | crash =>
      cases hs
      exact Unique.crash h

/-- `NewProc` makes no ad under an id in use, and `NewCluster` neither returns nor makes active the
number of a cluster in use. -/
theorem ids_not_reused {as : List Event}
    (hok : Along World.step (fun w a => a.Fresh w) World.initial as) {q : Qmgmt}
    (hr : run World.step World.initial as = some (up q)) (E : Env) :
    (∀ c, 0 ≤ (q.newProc E c).2 → ¬ q.InUse ⟨c,(q.newProc E c).2⟩) ∧
    (q.Fresh .newCluster → (q.newCluster E).2 ≠ -1 → (q.newCluster E).2 ≠ -2 →
      ∀ id, q.InUse id → id.cluster ≠ (q.newCluster E).1.activeClusterNum ∧
        ((q.newCluster E).2 ≠ -3 → id.cluster ≠ (q.newCluster E).2)) := by
  have h : Unique (up q) :=
    run_invariant (fun _ _ _ hw ha hs => hw.step ha hs) hok (show Unique World.initial from rfl) hr
  have hd : Distinct q := h
  refine ⟨fun c hnew hu => ?_,fun hf h1 h2 id hid => ?_⟩
  · obtain ⟨rfl,hpos,hres⟩ := newProc_made hnew
    have hlt := hd.procs hpos _ hu rfl
    exact absurd hlt (hres ▸ lt_irrefl _)
  · have hne := (hd.unused hf).ne hid
    rcases newCluster_result E q with h | h | ⟨ha,h⟩
    · exact absurd h h1
    · exact absurd h h2
    · rw [ha]
      exact ⟨hne,fun h3 => (h.resolve_left h3).symm ▸ hne⟩

def upWith (P : Qmgmt → Bool) : World → Bool
  | down _ _ => false
  | up q => P q

private theorem exists_of_upWith {P : Qmgmt → Bool} {w : World} (h : upWith P w = true) :
    ∃ q, w = up q ∧ P q = true := by
  cases w with
  | down t last => simp [upWith] at h
  | up q => exact ⟨q,rfl,h⟩

def submitAfterRestart : List Event :=
  [.start plainEnv plainSettings,
    .queue (.connect plainEnv (plainPeer (cstr "alice"))),
    .queue (.request plainEnv .newCluster),
    .queue (.request plainEnv (.newProc 1)),
    .queue (.request plainEnv (.setAttribute ⟨1,0⟩ (some (cstr "Owner")) (some (cstr "\"alice\""))
      noFlags)),
    .queue (.request plainEnv .commitTransaction),
    .crash,
    .start plainEnv plainSettings,
    .queue (.connect plainEnv (plainPeer (cstr "alice"))),
    .queue (.request plainEnv .newCluster),
    .queue (.request plainEnv (.newProc 2))]

theorem ids_not_reused_submitAfterRestart :
    ∃ q, run World.step World.initial submitAfterRestart = some (up q) ∧
      q.InUse ⟨2,0⟩ ∧ (q.newProc plainEnv 2).2 = 1 ∧ ¬ q.InUse ⟨2,1⟩ := by
  have hok : Along World.step (fun w a => a.Fresh w) World.initial submitAfterRestart := by
    decide
  obtain ⟨w,hr,hw⟩ := run_exists World.step World.initial submitAfterRestart
    (upWith fun q => decide (q.InUse ⟨2,0⟩) && (q.newProc plainEnv 2).2 == 1) (by decide)
  obtain ⟨q,rfl,hP⟩ := exists_of_upWith hw
  rw [Bool.and_eq_true,decide_eq_true_eq,beq_iff_eq] at hP
  have hnew := (ids_not_reused hok hr plainEnv).1 2 (hP.2 ▸ by decide)
  rw [hP.2] at hnew
  exact ⟨q,hr,hP.1,hP.2,hnew⟩

def oneCluster : ClusterSettings := { plainSettings with maximum := 1, maximum_nonneg := by decide }

/-- The counter wraps to a cluster in the queue. `NewCluster` refuses but leaves the cluster active,
and `NewProc` makes its first job again. -/
theorem ids_reused_after_wrap :
    ∃ q, run World.step World.initial
        [.start plainEnv oneCluster,
          .queue (.connect plainEnv (plainPeer (cstr "alice"))),
          .queue (.request plainEnv .newCluster),
          .queue (.request plainEnv (.newProc 1)),
          .queue (.request plainEnv .commitTransaction),
          .queue (.request plainEnv .newCluster)] = some (up q) ∧
      q.activeClusterNum = 1 ∧ q.InUse ⟨1,0⟩ ∧ (q.newProc plainEnv 1).2 = 0 := by
  obtain ⟨w,hr,hw⟩ := run_exists World.step World.initial
    [.start plainEnv oneCluster,
      .queue (.connect plainEnv (plainPeer (cstr "alice"))),
      .queue (.request plainEnv .newCluster),
      .queue (.request plainEnv (.newProc 1)),
      .queue (.request plainEnv .commitTransaction),
      .queue (.request plainEnv .newCluster)]
    (upWith fun q => q.activeClusterNum == 1 && decide (q.InUse ⟨1,0⟩) &&
      (q.newProc plainEnv 1).2 == 0) (by decide)
  obtain ⟨q,rfl,hP⟩ := exists_of_upWith hw
  rw [Bool.and_eq_true,Bool.and_eq_true,decide_eq_true_eq,beq_iff_eq,beq_iff_eq] at hP
  exact ⟨q,hr,hP.1.1,hP.1.2,hP.2⟩

end World

end Condor.Schedd
