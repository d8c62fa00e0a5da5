import Condor.Schedd.Edits

/-!
# Cluster numbers over restarts

The number in the header ad is ahead of the clusters in the queue as long as no maximum makes it
wrap and no job is put into a cluster whose making was aborted.
-/

namespace Condor.Schedd

open Lib List Function Option

def QueueAd.storedNum (ad : QueueAd) : Option Int :=
  match ad.attrs attrNextClusterNum with
  | some (.integer n) => some n
  | _ => none

def headerNum (t : JobTable) : Option Int := (t.lookup headerKey).bind QueueAd.storedNum

/-- The numbers in the ads under the header's key. -/
def headerNums (t : JobTable) : List (Option Int) := (t.column headerKey).map QueueAd.storedNum

private theorem headerNum_of_nums {t t' : JobTable} (h : headerNums t = headerNums t') :
    headerNum t = headerNum t' := by
  have hhead : ∀ t, headerNum t = (headerNums t).head?.join := by
    intro t
    rw [headerNum,Table.lookup_eq_head,headerNums,head?_map]
    cases (t.column headerKey).head? <;> rfl
  rw [hhead,hhead,h]

private theorem headerNum_of_column {t t' : JobTable}
    (h : t.column headerKey = t'.column headerKey) :
    headerNum t = headerNum t' :=
  headerNum_of_nums (by rw [headerNums,headerNums,h])

private theorem headerNum_play_ne (op : QueueOp) (t : JobTable) (h : op.key ≠ headerKey) :
    headerNum (op.play t) = headerNum t :=
  headerNum_of_column (op.column_play_ne t h.symm)

private theorem headerNums_adjust {f : QueueAd → QueueAd} {g : Option Int → Option Int}
    (hf : ∀ ad, (f ad).storedNum = g ad.storedNum) (t : JobTable) :
    headerNums (t.adjust f headerKey) = Table.adjustHead g (headerNums t) := by
  rw [headerNums,headerNums,Table.column_adjust_self]
  cases t.column headerKey with
  | nil => rfl
  | cons ad ads => rw [Table.adjustHead,map_cons,hf,map_cons,Table.adjustHead]

private theorem storedNum_deleteAttr (t : JobTable) (id : ProcId) (n : AttrName) (ad : QueueAd) :
    (deleteAttr t id n ad).storedNum =
      if n = attrNextClusterNum then none else ad.storedNum := by
  by_cases hn : n = attrNextClusterNum
  · subst hn
    rw [if_pos rfl,QueueAd.storedNum,deleteAttr]
    simp only [update_self]
    split <;> simp_all
  · rw [if_neg hn,QueueAd.storedNum,deleteAttr_ne t id ad (Ne.symm hn),QueueAd.storedNum]

/-- The numbers of the header after a record depend on those before it. -/
theorem headerNums_play_congr (op : QueueOp) {t t' : JobTable} (h : headerNums t = headerNums t') :
    headerNums (op.play t) = headerNums (op.play t') := by
  by_cases hk : headerKey = op.key
  · cases op with
    | newClassAd k =>
      obtain rfl : headerKey = k := hk
      have hcons : ∀ t : JobTable, headerNums ((QueueOp.newClassAd headerKey).play t) =
          none :: headerNums t := fun t => by
        rw [headerNums,QueueOp.play,Table.column_cons,if_pos rfl,map_cons]
        rfl
      rw [hcons,hcons,h]
    | destroyClassAd k =>
      obtain rfl : headerKey = k := hk
      have htail : ∀ t : JobTable, headerNums ((QueueOp.destroyClassAd headerKey).play t) =
          (headerNums t).tail := fun t => by
        rw [headerNums,QueueOp.play,Table.column_remove_self,map_tail]
        rfl
      rw [htail,htail,h]
    | setAttribute k n v =>
      obtain rfl : headerKey = k := hk
      cases v with
      | none => exact h
      | some x =>
        have hset : ∀ ad : QueueAd,
            ({ ad with attrs := update ad.attrs n (some x) } : QueueAd).storedNum =
              if n = attrNextClusterNum then
                QueueAd.storedNum ⟨fun _ => some x,false⟩ else ad.storedNum := by
          intro ad
          by_cases hn : n = attrNextClusterNum
          · subst hn
            simp [QueueAd.storedNum]
          · simp [QueueAd.storedNum,hn,update_of_ne (Ne.symm hn)]
        rw [QueueOp.play,QueueOp.play,headerNums_adjust hset,headerNums_adjust hset,h]
    | deleteAttribute k n =>
      obtain rfl : headerKey = k := hk
      rw [QueueOp.play,QueueOp.play,headerNums_adjust (storedNum_deleteAttr t headerKey n),
        headerNums_adjust (storedNum_deleteAttr t' headerKey n),h]
  · rw [headerNums,headerNums,op.column_play_ne t hk,op.column_play_ne t' hk]
    exact h

private theorem headerNum_playAll_congr (ops : List QueueOp) {t t' : JobTable}
    (h : headerNums t = headerNums t') :
    headerNum (Ledger.playAll QueueOp.play ops t) = headerNum
    (Ledger.playAll QueueOp.play ops t') := by
  induction ops generalizing t t' with
  | nil => exact headerNum_of_nums h
  | cons op ops ih =>
    rw [Ledger.playAll_cons,Ledger.playAll_cons]
    exact ih (headerNums_play_congr op h)

variable {t : JobTable}

private theorem headerNum_play_lookup {ad : QueueAd} (h : t.lookup headerKey = some ad) (n : Int) :
    headerNum ((QueueOp.setAttribute headerKey attrNextClusterNum (some (.integer n))).play t) =
      some n := by
  rw [headerNum,QueueOp.play,Table.lookup_adjust,if_pos rfl,h]
  simp [QueueAd.storedNum]

private theorem headerNum_play_set {m : Int} (h : headerNum t = some m) (n : Int) :
    headerNum ((QueueOp.setAttribute headerKey attrNextClusterNum (some (.integer n))).play t) =
      some n := by
  rw [headerNum,bind_eq_some_iff] at h
  obtain ⟨ad,had,-⟩ := h
  exact headerNum_play_lookup had n

private theorem headerNum_chainToCluster (t : JobTable) (id : ProcId) :
    headerNum (Qmgmt.chainToCluster t id) = headerNum t := by
  rw [Qmgmt.chainToCluster]
  split
  · rw [headerNum,headerNum,Table.lookup_adjust]
    split
    · next hid =>
      subst hid
      cases t.lookup headerKey <;> rfl
    · rfl
  · rfl

namespace Qmgmt

def newAds (q : Qmgmt) : List ProcId := q.jobQueue.newAdsInTransaction

theorem newAds_of_none {q : Qmgmt} (h : q.inTransaction = false) : q.newAds = [] := by
  have hp : q.jobQueue.pending = none := by simpa [inTransaction] using h
  rw [newAds,JobQueue.newAdsInTransaction,hp]
  rfl

structure Shrunk (q q' : Qmgmt) : Prop where
  keys : q'.keys ⊆ q.keys
  viewKeys : q'.viewKeys ⊆ q.viewKeys
  newAds : q'.newAds ⊆ q.newAds
  header : headerNum q'.jobQueue.committed = headerNum q.jobQueue.committed
  headerView : headerNum q'.jobQueue.view = headerNum q.jobQueue.view

variable {E : Env} {q q' q'' : Qmgmt}

theorem Shrunk.refl (q : Qmgmt) : Shrunk q q := ⟨fun _ h => h,fun _ h => h,fun _ h => h,rfl,rfl⟩

theorem Shrunk.trans (h : Shrunk q q') (h' : Shrunk q' q'') : Shrunk q q'' where
  keys := fun _ hid => h.keys (h'.keys hid)
  viewKeys := fun _ hid => h.viewKeys (h'.viewKeys hid)
  newAds := fun _ hid => h.newAds (h'.newAds hid)
  header := h'.header.trans h.header
  headerView := h'.headerView.trans h.headerView

def Shrinks (op : QueueOp) : Prop := op.key ≠ headerKey ∧ ∀ k, op ≠ .newClassAd k

theorem Shrinks.playKeys {op : QueueOp} (h : Shrinks op) (ks : List ProcId) :
    op.playKeys ks ⊆ ks := by
  cases op with
  | newClassAd k => exact absurd rfl (h.2 k)
  | destroyClassAd k => exact erase_subset
  | setAttribute | deleteAttribute => exact fun _ hid => hid

theorem Shrunk.log (q : Qmgmt) {op : QueueOp} (h : Shrinks op) : Shrunk q (q.log op) := by
  have hview : headerNum (q.log op).jobQueue.view = headerNum q.jobQueue.view :=
    (congrArg headerNum (Ledger.view_append QueueOp.play q.jobQueue op)).trans
      (headerNum_play_ne op _ h.1)
  cases hin : q.inTransaction with
  | true =>
    obtain ⟨ops,hops⟩ := Option.isSome_iff_exists.mp hin
    refine ⟨?_,?_,?_,?_,hview⟩
    · rw [keys_log_of_transaction hin]
      exact fun _ hid => hid
    · rw [viewKeys_log]
      exact h.playKeys _
    · have hnew : (q.log op).newAds = q.newAds := by
        rw [Qmgmt.newAds,Qmgmt.newAds,JobQueue.newAdsInTransaction,JobQueue.newAdsInTransaction,
          Qmgmt.log,JobQueue.append,Ledger.append,hops]
        simp only [getD_some,filterMap_append]
        cases op with
        | newClassAd k => exact absurd rfl (h.2 k)
        | destroyClassAd | setAttribute | deleteAttribute => simp
      rw [hnew]
      exact fun _ hid => hid
    · exact congrArg headerNum (Ledger.committed_append QueueOp.play hops op)
  | false =>
    have hout : (q.log op).inTransaction = false := (SameVars.log q op).inTransaction.trans hin
    have hsub : (q.log op).keys ⊆ q.keys := by
      rw [keys_log_of_none hin]
      exact h.playKeys _
    refine ⟨hsub,?_,?_,?_,hview⟩
    · rw [viewKeys_of_none hout,viewKeys_of_none hin]
      exact hsub
    · rw [newAds_of_none hout]
      exact nil_subset _
    · have hp : q.jobQueue.pending = none := by simpa [inTransaction] using hin
      have hc : (q.log op).jobQueue.committed = op.play q.jobQueue.committed := by
        rw [Qmgmt.log,JobQueue.append,Ledger.append,hp]
      rw [hc]
      exact headerNum_play_ne op _ h.1

variable {id : ProcId}

theorem Shrunk.dropAutoCluster (q : Qmgmt) (h : id ≠ headerKey) :
    Shrunk q (q.dropAutoCluster id) where
  keys := by
    rw [keys_dropAutoCluster]
    exact fun _ hid => hid
  viewKeys := by
    rw [viewKeys_dropAutoCluster]
    exact fun _ hid => hid
  newAds := fun _ hid => hid
  header := headerNum_of_column (Table.column_adjust_ne _ h.symm _)
  headerView := headerNum_playAll_congr _
    (congrArg (List.map QueueAd.storedNum) (Table.column_adjust_ne _ h.symm _))

theorem Edited.shrunk {P : QueueOp → Prop} {K : ProcId → Prop} (h : Edited P K q q')
    (hP : ∀ op, P op → Shrinks op) (hK : ∀ id, K id → id ≠ headerKey) : Shrunk q q' := by
  induction h with
  | refl => exact .refl q
  | log _ hop ih => exact ih.trans (.log _ (hP _ hop))
  | forget _ hid ih => exact ih.trans (.dropAutoCluster _ (hK _ hid))
  | touch _ _ _ ih => exact ih.trans ⟨fun _ h => h,fun _ h => h,fun _ h => h,rfl,rfl⟩

private theorem Sets.shrinks (hid : id ≠ headerKey) {op : QueueOp} (h : Sets id op) :
    Shrinks op := by
  obtain ⟨n,v,rfl⟩ := h
  exact ⟨hid,fun k he => by cases he⟩

theorem Shrunk.clusterCleanup (q : Qmgmt) (c : Int) : Shrunk q (q.clusterCleanup c) := by
  have hop : Shrinks (.destroyClassAd (clusterKey c)) := by
    refine ⟨fun he => ?_,fun k he => by cases he⟩
    have hproc := congrArg ProcId.proc he
    exact absurd hproc (show (-1 : Int) ≠ 0 by decide)
  have hfirst : Shrunk q { q with clusterSize := update q.clusterSize c none } :=
    ⟨fun _ h => h,fun _ h => h,fun _ h => h,rfl,rfl⟩
  exact hfirst.trans (.log _ hop)

theorem Shrunk.decrementClusterSize (q : Qmgmt) (c : Int) :
    Shrunk q (q.decrementClusterSize c) := by
  have hfirst : Shrunk q { q with totalJobsCount := q.totalJobsCount - 1 } :=
    ⟨fun _ h => h,fun _ h => h,fun _ h => h,rfl,rfl⟩
  rw [Qmgmt.decrementClusterSize]
  split
  · exact hfirst
  · split
    · exact hfirst.trans (.clusterCleanup _ c)
    · exact ⟨fun _ h => h,fun _ h => h,fun _ h => h,rfl,rfl⟩

theorem Shrunk.destroyMyProxyPassword (hid : id ≠ headerKey)
    (h : q.destroyMyProxyPassword E id = some q') : Shrunk q q' :=
  (destroyMyProxyPassword_edited h).shrunk (fun _ hop => hop.shrinks hid) fun _ he => he ▸ hid

theorem Shrunk.removeProc (hid : id ≠ headerKey) (h : q.removeProc E id = some q') :
    Shrunk q q' := by
  rw [Qmgmt.removeProc,map_eq_some_iff] at h
  obtain ⟨q1,hq1,rfl⟩ := h
  have hop : Shrinks (.destroyClassAd id) := ⟨hid,fun k he => by cases he⟩
  exact ((Shrunk.destroyMyProxyPassword hid hq1).trans (.log q1 hop)).trans
    (.decrementClusterSize _ _)

theorem Shrunk.destroyCluster {c : Int} {r : Qmgmt × Int} (h : q.destroyCluster E c = some r) :
    Shrunk q r.1 := by
  rw [Qmgmt.destroyCluster] at h
  split at h
  · cases h
    exact .refl q
  · next hc =>
    rw [bind_eq_some_iff] at h
    obtain ⟨s,hs,h⟩ := h
    have hne : ∀ id : ProcId, id.cluster = c → id ≠ headerKey := by
      rintro id hid rfl
      exact hc (hid ▸ by decide)
    have hloop : Shrunk q s.q := by
      refine (destroyClusterLoop_edited hs).shrunk ?_ fun id hid => hne id hid.1
      rintro op ⟨id,hid,-,hop | rfl⟩
      · exact hop.shrinks (hne id hid)
      · exact ⟨hne id hid,fun k he => by cases he⟩
    split at h
    · cases h
      exact hloop
    · rw [map_eq_some_iff] at h
      obtain ⟨q1,hq1,rfl⟩ := h
      exact (hloop.trans (.clusterCleanup _ c)).trans
        (.destroyMyProxyPassword (hne (clusterKey c) rfl) hq1)

private theorem headerNum_commitTransaction (q : Qmgmt) :
    headerNum q.commitTransaction.jobQueue.committed = headerNum q.jobQueue.view := by
  have hchain : ∀ (ids : List ProcId) (t : JobTable),
      headerNum (ids.foldl chainToCluster t) = headerNum t := by
    intro ids
    induction ids with
    | nil => exact fun t => rfl
    | cons id ids ih => exact fun t => (ih _).trans (headerNum_chainToCluster t id)
  exact hchain _ _

theorem Shrunk.committed (hb : q.beginTransaction E = some q') (h : Shrunk q' q'') :
    Shrunk q q''.commitTransaction := by
  obtain ⟨hview,hout⟩ := viewKeys_beginTransaction hb
  have hkeys : q''.viewKeys ⊆ q.keys := by
    rw [← viewKeys_of_none hout,← hview]
    exact h.viewKeys
  have hheader : headerNum q''.jobQueue.view = headerNum q.jobQueue.committed := by
    rw [h.headerView]
    rw [Qmgmt.beginTransaction] at hb
    split at hb
    · simp at hb
    · cases hb
      rfl
  have hq : headerNum q.jobQueue.view = headerNum q.jobQueue.committed := by
    have hp : q.jobQueue.pending = none := by simpa [inTransaction] using hout
    exact congrArg headerNum (Ledger.view_of_none QueueOp.play hp)
  refine ⟨?_,?_,fun _ hid => absurd hid (by simp [newAds_of_none (q := q''.commitTransaction) rfl]),
    (headerNum_commitTransaction q'').trans hheader,?_⟩
  · rw [keys_commitTransaction]
    exact hkeys
  · rw [viewKeys_commitTransaction,viewKeys_of_none hout]
    exact hkeys
  · rw [hq]
    exact (headerNum_commitTransaction q'').trans hheader

theorem Shrunk.destroyProc (hid : id ≠ headerKey) {r : Qmgmt × Int}
    (h : q.destroyProc E id = some r) : Shrunk q r.1 := by
  unfold Qmgmt.destroyProc at h
  split at h
  · cases h
    exact .refl q
  · split at h
    · cases h
      exact .refl q
    · rw [bind_eq_some_iff] at h
      obtain ⟨q1,hq1,h⟩ := h
      have hstamp : Shrunk q q1 :=
        (stampCompletion_edited hq1).shrunk (fun _ hop => hop.shrinks hid) fun _ he => he ▸ hid
      refine hstamp.trans ?_
      split at h
      · cases h
        exact .refl q1
      · split at h
        · rw [map_eq_some_iff] at h
          obtain ⟨r1,hr1,rfl⟩ := h
          have hc : Shrunk q1 r1.1 := Shrunk.destroyCluster hr1
          exact hc
        · split at h
          · rw [map_eq_some_iff] at h
            obtain ⟨q2,hq2,rfl⟩ := h
            exact .removeProc hid hq2
          · rw [bind_eq_some_iff] at h
            obtain ⟨q2,hq2,h⟩ := h
            rw [map_eq_some_iff] at h
            obtain ⟨q3,hq3,rfl⟩ := h
            exact .committed hq2 (.removeProc hid hq3)

end Qmgmt

def Request.SparesHeader : Request → Prop
  | .destroyProc id => id.cluster ≠ 0
  | .setAttribute id _ _ _ => id.cluster ≠ 0
  | .setTimerAttribute id _ _ => id.cluster ≠ 0
  | .deleteAttribute id _ => id.cluster ≠ 0
  | _ => True

instance : ∀ r : Request, Decidable r.SparesHeader
  | .destroyProc id | .setAttribute id .. | .setTimerAttribute id .. | .deleteAttribute id _ =>
    inferInstanceAs (Decidable (id.cluster ≠ 0))
  | .newCluster | .newProc _ | .destroyCluster _ | .setAttributeByConstraint .. | .getAttribute ..
  | .beginTransaction | .commitTransaction | .abortTransaction => .isTrue trivial

namespace Qmgmt

variable {E : Env} {q q' q'' : Qmgmt}

theorem cluster_ne_header {id : ProcId} (h : id.cluster ≠ 0) : id ≠ headerKey := by
  rintro rfl
  exact h rfl

theorem Shrunk.doQRequest {r : Request} (hs : r.SparesHeader) (hc : r ≠ .newCluster)
    (hp : ∀ c, r ≠ .newProc c) (hb : r ≠ .beginTransaction) (hcommit : r ≠ .commitTransaction)
    (ha : r ≠ .abortTransaction) {res : Qmgmt × Int} (h : q.doQRequest E r = some res) :
    Shrunk q res.1 := by
  have hedited : ∀ {id : ProcId} {q' : Qmgmt}, id.cluster ≠ 0 →
      Edited (Sets id) (· = id) q q' → Shrunk q q' := fun hid he =>
    he.shrunk (fun _ hop => hop.shrinks (cluster_ne_header hid))
      fun _ hk => hk ▸ cluster_ne_header hid
  cases r with
  | newCluster => exact absurd rfl hc
  | newProc c => exact absurd rfl (hp c)
  | beginTransaction => exact absurd rfl hb
  | commitTransaction => exact absurd rfl hcommit
  | abortTransaction => exact absurd rfl ha
  | destroyProc id => exact .destroyProc (cluster_ne_header hs) h
  | destroyCluster c => exact .destroyCluster h
  | setAttribute id name value flags =>
    rw [Qmgmt.doQRequest] at h
    split at h
    · have hid : (passwordKey id).cluster ≠ 0 := (cluster_passwordKey id).symm ▸ hs
      exact hedited hid (setMyProxyPassword_edited h)
    · exact hedited hs (setAttribute_edited h)
  | setAttributeByConstraint constraint name value flags =>
    cases name with
    | none => simp [Qmgmt.doQRequest] at h
    | some s =>
      dsimp only [Qmgmt.doQRequest] at h
      split at h
      · cases h
        exact .refl q
      · refine (setAttributeByConstraint_edited h).shrunk ?_ fun id hid =>
          cluster_ne_header hid.1.ne'
        rintro op ⟨id,hid,-,hop⟩
        exact hop.shrinks (cluster_ne_header hid.ne')
  | setTimerAttribute id name duration => exact hedited hs (setTimerAttribute_edited h)
  | deleteAttribute id name =>
    refine (deleteAttribute_edited h).shrunk ?_ fun _ hk => hk ▸ cluster_ne_header hs
    rintro op ⟨n,rfl⟩
    exact ⟨cluster_ne_header hs,fun k he => by cases he⟩
  | getAttribute id name =>
    cases name with
    | none => simp [Qmgmt.doQRequest] at h
    | some s =>
      cases h
      exact .refl q

/-- The number in the header ad is not past `next`, and the clusters of the ads that matter are
at least `gap` behind it. -/
def StoredIn (p : ProcId → Prop) (gap next : Int) (t : JobTable) : Prop :=
  ∃ n, headerNum t = some n ∧ 1 ≤ n ∧ n ≤ next ∧ ∀ id ∈ t.keys, p id → id.cluster + gap ≤ n

def Numbered (p : ProcId → Prop) (gap : Int) (q : Qmgmt) : Prop :=
  Ledger.Both QueueOp.play (StoredIn p gap q.nextClusterNum) q.jobQueue

variable {p : ProcId → Prop} {gap : Int}

theorem StoredIn.mono {next next' : Int} (h : StoredIn p gap next t)
    (hle : next ≤ next') : StoredIn p gap next' t := by
  obtain ⟨n,hn,h1,h2,h3⟩ := h
  exact ⟨n,hn,h1,h2.trans hle,h3⟩

theorem StoredIn.shrunk {next : Int} {t t' : JobTable} (h : StoredIn p gap next t)
    (hk : t'.keys ⊆ t.keys) (hn : headerNum t' = headerNum t) : StoredIn p gap next t' := by
  obtain ⟨n,hnum,h1,h2,h3⟩ := h
  exact ⟨n,hn.trans hnum,h1,h2,fun id hid => h3 id (hk hid)⟩

theorem Numbered.shrunk (h : Numbered p gap q) (hs : Shrunk q q')
    (hn : q'.nextClusterNum = q.nextClusterNum) : Numbered p gap q' := by
  rw [Numbered,hn]
  exact ⟨h.1.shrunk hs.keys hs.header,h.2.shrunk hs.viewKeys hs.headerView⟩

theorem Numbered.logCluster {next : Int} (h : Numbered p gap q) (hgap : gap ≤ q.settings.increment)
    (hnext : next = q.nextClusterNum + q.settings.increment) :
    Numbered p gap
      { q with
        nextProcNum := 0
        activeClusterNum := q.nextClusterNum
        nextClusterNum := next }.logCluster := by
  have hinc := q.settings.increment_pos
  have hle : q.nextClusterNum ≤ next := by omega
  have hmono : Ledger.Both QueueOp.play (StoredIn p gap next) q.jobQueue :=
    h.mono fun t ht => ht.mono hle
  apply Ledger.Both.append
  · apply hmono.append
    rintro ⟨n,hn,h1,h2,h3⟩
    refine ⟨next,headerNum_play_set hn next,by omega,le_refl _,fun id hid hp => ?_⟩
    rw [QueueOp.keys_play] at hid
    have hid' := h3 id hid hp
    omega
  · rintro ⟨n,hn,h1,h2,h3⟩
    -- the number has just been set
    obtain ⟨m,hm,-⟩ := h.2
    have hset : headerNum (Ledger.view QueueOp.play (Ledger.append QueueOp.play q.jobQueue
        (.setAttribute headerKey attrNextClusterNum (some (.integer next))))) = some next := by
      rw [Ledger.view_append]
      exact headerNum_play_set hm next
    obtain rfl : n = next := some.inj (hn.symm.trans hset)
    have hkey : clusterKey q.nextClusterNum ≠ headerKey := fun he =>
      absurd (congrArg ProcId.proc he) (show (-1 : Int) ≠ 0 by decide)
    refine ⟨n,(headerNum_play_ne (.newClassAd _) _ hkey).trans hn,h1,h2,fun id hid hp => ?_⟩
    rw [QueueOp.keys_play] at hid
    rcases List.mem_cons.mp hid with rfl | hid
    · change q.nextClusterNum + gap ≤ n
      omega
    · exact h3 id hid hp

theorem wrapClusterNum_none {s : ClusterSettings} (h : s.maximum = 0) (n : Int) :
    wrapClusterNum s n = n := by
  rw [wrapClusterNum,if_neg (by omega)]

theorem Numbered.newCluster (h : Numbered p gap q) (hgap : gap ≤ q.settings.increment)
    (hmax : q.settings.maximum = 0) : Numbered p gap (q.newCluster E).1 := by
  have hinc := q.settings.increment_pos
  have hnext := wrapClusterNum_none hmax (q.nextClusterNum + q.settings.increment)
  rcases newCluster_cases E q with h' | ⟨-,h'⟩ | h' | h' <;> rw [h']
  · exact h
  · exact h
  · refine h.mono fun t ht => ht.mono ?_
    change _ ≤ wrapClusterNum _ _
    omega
  · exact h.logCluster hgap hnext

theorem Numbered.logProc (h : Numbered p gap q) (hc : 1 ≤ q.activeClusterNum)
    (hstored : p q.nextProc → ∀ n, headerNum q.jobQueue.view = some n →
      q.activeClusterNum + gap ≤ n) : Numbered p gap (q.logProc E) := by
  have hkey : q.nextProc ≠ headerKey := fun he => by
    have hcl : q.activeClusterNum = 0 := congrArg ProcId.cluster he
    omega
  apply Ledger.Both.append
  · apply Ledger.Both.append h
    rintro ⟨n,hn,h1,h2,h3⟩
    refine ⟨n,(headerNum_play_ne (.newClassAd _) _ hkey).trans hn,h1,h2,fun id hid hp => ?_⟩
    rw [QueueOp.keys_play] at hid
    rcases List.mem_cons.mp hid with rfl | hid
    · exact hstored hp n hn
    · exact h3 id hid hp
  · intro hset
    refine hset.shrunk ?_ (headerNum_play_ne _ _ hkey)
    rw [QueueOp.keys_play]
    exact fun _ hid => hid

theorem Numbered.newProc (h : Numbered p gap q) {c : Int}
    (hstored : c = q.activeClusterNum → p q.nextProc → ∀ n, headerNum q.jobQueue.view = some n →
      c + gap ≤ n) : Numbered p gap (q.newProc E c).1 := by
  rcases newProc_cases E q c with h' | ⟨-,h'⟩ | ⟨hc,ha,h'⟩ <;> rw [h']
  · exact h
  · exact h
  · refine h.logProc ha fun hp n hn => ?_
    rw [← hc]
    exact hstored hc hp n hn

theorem Numbered.commitTransaction (h : Numbered p gap q) : Numbered p gap q.commitTransaction := by
  have hc : StoredIn p gap q.nextClusterNum q.commitTransaction.jobQueue.committed :=
    h.2.shrunk (List.subset_def.mpr fun {id} (hid : id ∈ q.commitTransaction.keys) => by
      rw [keys_commitTransaction] at hid
      exact hid) (headerNum_commitTransaction q)
  exact ⟨hc,hc⟩

theorem Numbered.beginTransaction (h : Numbered p gap q) (hb : q.beginTransaction E = some q') :
    Numbered p gap q' := by
  rw [Qmgmt.beginTransaction] at hb
  split at hb
  · simp at hb
  · cases hb
    exact Ledger.Both.start h

theorem Numbered.abortTransaction (h : Numbered p gap q) : Numbered p gap q.abortTransaction :=
  Ledger.Both.abort h

/-- What the loop of `InitJobQueue` has done to a queue over some ads. -/
structure Looped (q q' : Qmgmt) (es : JobTable) : Prop where
  outside : q.inTransaction = false → q'.inTransaction = false
  settings : q'.settings = q.settings
  nextProcNum : q'.nextProcNum = q.nextProcNum
  activeClusterNum : q'.activeClusterNum = q.activeClusterNum
  keys : q.inTransaction = false → q'.keys ⊆ q.keys
  header : q.inTransaction = false →
    headerNum q'.jobQueue.committed = headerNum q.jobQueue.committed
  least : q.nextClusterNum ≤ q'.nextClusterNum
  ahead : ∀ e ∈ es, e.1.isJob = true → e.1.cluster < q'.nextClusterNum
  bounded : ∀ b, q.nextClusterNum ≤ b →
    (∀ e ∈ es, e.1.isJob = true → e.1.cluster + q.settings.increment ≤ b) →
    q'.nextClusterNum ≤ b

private theorem looped_raiseClusterNum (q : Qmgmt) {e : ProcId × QueueAd} (hj : e.1.isJob = true) :
    Looped q (q.raiseClusterNum e.1.cluster) [e] := by
  have hinc := q.settings.increment_pos
  rw [raiseClusterNum]
  split
  · next hle =>
    refine ⟨fun h => h,rfl,rfl,rfl,fun _ _ h => h,fun _ => rfl,?_,?_,?_⟩
    · change q.nextClusterNum ≤ e.1.cluster + q.settings.increment
      omega
    · intro e' he' _
      obtain rfl := List.mem_singleton.mp he'
      change e'.1.cluster < e'.1.cluster + q.settings.increment
      omega
    · exact fun b _ hes => hes e (mem_singleton_self e) hj
  · next hle =>
    refine ⟨fun h => h,rfl,rfl,rfl,fun _ _ h => h,fun _ => rfl,le_refl _,?_,fun b hb _ => hb⟩
    intro e' he' _
    obtain rfl := List.mem_singleton.mp he'
    omega

theorem Looped.then {es : JobTable} (h : Looped q q' es) (hs : Shrunk q' q'') (hn : SameNums q' q'')
    (hin : q''.inTransaction = q'.inTransaction) : Looped q q'' es where
  outside hq := hin.trans (h.outside hq)
  settings := hn.settings.trans h.settings
  nextProcNum := hn.nextProcNum.trans h.nextProcNum
  activeClusterNum := hn.activeClusterNum.trans h.activeClusterNum
  keys hq := fun _ hid => h.keys hq (hs.keys hid)
  header hq := hs.header.trans (h.header hq)
  least := by
    rw [hn.nextClusterNum]
    exact h.least
  ahead := by
    rw [hn.nextClusterNum]
    exact h.ahead
  bounded := by
    rw [hn.nextClusterNum]
    exact h.bounded

theorem Shrunk.chainJob (q : Qmgmt) (id : ProcId) (h : q.inTransaction = false) :
    Shrunk q (q.chainJob id) := by
  have hp : q.jobQueue.pending = none := by simpa [inTransaction] using h
  have hkeys : (q.chainJob id).keys = q.keys := keys_chainToCluster _ id
  have hheader : headerNum (q.chainJob id).jobQueue.committed = headerNum q.jobQueue.committed :=
    headerNum_chainToCluster _ id
  have hview : (q.chainJob id).jobQueue.view = (q.chainJob id).jobQueue.committed :=
    Ledger.view_of_none QueueOp.play hp
  have hview' : q.jobQueue.view = q.jobQueue.committed := Ledger.view_of_none QueueOp.play hp
  refine ⟨fun _ hid => hkeys ▸ hid,?_,fun _ hid => hid,hheader,?_⟩
  · rw [viewKeys_of_none (q := q.chainJob id) h,viewKeys_of_none h,hkeys]
    exact fun _ hid => hid
  · rw [hview,hview',hheader]

private theorem looped_initTurn (E : Env) {q : Qmgmt} (hq : q.inTransaction = false)
    (e : ProcId × QueueAd) :
    Looped q (initTurn E q e) [e] := by
  rw [initTurn]
  cases hj : e.1.isJob with
  | false =>
    rw [Bool.not_false,if_pos rfl]
    refine ⟨fun h => h,rfl,rfl,rfl,fun _ _ h => h,fun _ => rfl,le_refl _,?_,fun _ h _ => h⟩
    intro e' he' hj'
    rw [List.mem_singleton.mp he',hj] at hj'
    simp at hj'
  | true =>
    rw [Bool.not_true,if_neg (by simp)]
    have h1 := looped_raiseClusterNum q hj
    have h2 := h1.then (Shrunk.chainJob _ e.1 (h1.outside hq)) ⟨rfl,rfl,rfl,rfl,rfl⟩ rfl
    generalize (q.raiseClusterNum e.1.cluster).chainJob e.1 = q2 at h2
    dsimp only
    split
    · exact h2.then ⟨fun _ h => h,fun _ h => h,fun _ h => h,rfl,rfl⟩ ⟨rfl,rfl,rfl,rfl,rfl⟩ rfl
    · have hne : e.1 ≠ headerKey := fun he => by
        rw [he] at hj
        exact absurd hj (by decide)
      have hs := SameVars.log q2 (.destroyClassAd e.1)
      exact h2.then (.log q2 ⟨hne,fun k he => by cases he⟩) hs.nums hs.inTransaction

private theorem looped_foldl (E : Env) {q : Qmgmt} (hq : q.inTransaction = false) (es : JobTable) :
    Looped q (es.foldl (initTurn E) q) es := by
  induction es generalizing q with
  | nil =>
    exact ⟨fun h => h,rfl,rfl,rfl,fun _ _ h => h,fun _ => rfl,le_refl _,by simp,fun _ h _ => h⟩
  | cons e es ih =>
    have h1 := looped_initTurn E hq e
    have h2 := ih (h1.outside hq)
    refine ⟨fun h => h2.outside (h1.outside h),h2.settings.trans h1.settings,
      h2.nextProcNum.trans h1.nextProcNum,h2.activeClusterNum.trans h1.activeClusterNum,
      fun h _ hid => h1.keys h (h2.keys (h1.outside h) hid),
      fun h => (h2.header (h1.outside h)).trans (h1.header h),h1.least.trans h2.least,?_,?_⟩
    · intro e' he' hj
      rcases List.mem_cons.mp he' with rfl | he'
      · exact (h1.ahead e' (mem_singleton_self e') hj).trans_le h2.least
      · exact h2.ahead e' he' hj
    · intro b hb hes
      refine h2.bounded b (h1.bounded b hb fun e' he' hj => ?_) fun e' he' hj => ?_
      · exact hes e' (List.mem_cons.mpr (Or.inl (List.mem_singleton.mp he'))) hj
      · rw [h1.settings]
        exact hes e' (mem_cons_of_mem _ he') hj

/-- What `InitJobQueue` leaves behind, whatever its settings. -/
structure Started (t : JobTable) (settings : ClusterSettings) (q : Qmgmt) : Prop where
  outside : q.inTransaction = false
  settings_eq : q.settings = settings
  nextProcNum : q.nextProcNum = 0
  activeClusterNum : q.activeClusterNum = -1
  keys : q.keys ⊆ headerKey :: t.keys

theorem headerNum_withHeader (settings : ClusterSettings) {n : Int}
    (h : headerNum t = some n) : withHeader t settings = initial t settings := by
  have hs : (t.lookup headerKey).isSome = true := by
    rw [headerNum,bind_eq_some_iff] at h
    obtain ⟨ad,had,-⟩ := h
    rw [had]
    rfl
  rw [withHeader,if_pos hs]

@[simp] theorem keys_reread (E : Env) (t : JobTable) : (reread E t).keys = t.keys := by
  rw [reread,Table.keys,Table.keys,List.map_map]
  rfl

theorem headerNum_reread (E : Env) (t : JobTable) : headerNum (reread E t) = headerNum t := by
  rw [headerNum,headerNum]
  induction t with
  | nil => rfl
  | cons e t ih =>
    rw [reread,map_cons,Table.lookup_cons,Table.lookup_cons]
    split
    · rw [bind_some,bind_some,QueueAd.storedNum,QueueAd.storedNum]
      dsimp only
      cases e.2.attrs attrNextClusterNum with
      | none => rfl
      | some v =>
        cases v with
        | undefined =>
          dsimp only
          split <;> simp_all
        | _ => rfl
    · exact ih

theorem storedClusterNum_eq {settings : ClusterSettings} {n : Int}
    (h : headerNum t = some n) (hmax : settings.maximum = 0) : storedClusterNum E t settings =
    n := by
  rw [headerNum,bind_eq_some_iff] at h
  obtain ⟨ad,had,hnum⟩ := h
  rw [QueueAd.storedNum] at hnum
  have hlook : lookupInteger E ad.attrs attrNextClusterNum = some n := by
    rw [lookupInteger]
    split at hnum
    · next hattr =>
      rw [hattr]
      exact hnum
    · simp at hnum
  rw [storedClusterNum,had,bind_some,hlook,if_neg (by omega)]
  rfl

private theorem keys_withHeader (t : JobTable) (settings : ClusterSettings) :
    (withHeader t settings).keys ⊆ headerKey :: t.keys := by
  rw [withHeader]
  split
  · exact subset_cons_self _ _
  · exact fun _ hid => hid

theorem looped_initLoop (E : Env) (t : JobTable) (settings : ClusterSettings) :
    Looped (withHeader t settings) (initLoop E t settings)
      (withHeader t settings).jobQueue.committed := by
  apply looped_foldl
  rw [withHeader]
  split <;> rfl

private theorem started_initFromAds {settings : ClusterSettings}
    (h : initFromAds E t settings = some q) : Started t settings q := by
  have hout : (withHeader t settings).inTransaction = false := by
    rw [withHeader]
    split <;> rfl
  have hvars : (withHeader t settings).settings = settings ∧
      (withHeader t settings).nextProcNum = 0 ∧ (withHeader t settings).activeClusterNum = -1 := by
    rw [withHeader]
    split <;> exact ⟨rfl,rfl,rfl⟩
  have hloop := looped_initLoop E t settings
  have hstart : ∀ n, Started t settings { initLoop E t settings with nextClusterNum := n } :=
    fun n => ⟨hloop.outside hout,hloop.settings.trans hvars.1,hloop.nextProcNum.trans hvars.2.1,
      hloop.activeClusterNum.trans hvars.2.2,
      fun _ hid => keys_withHeader t settings (hloop.keys hout hid)⟩
  rw [initFromAds] at h
  split at h
  · cases h
    have hs := hstart (wrapClusterNum settings (initLoop E t settings).nextClusterNum)
    have hv := SameVars.log { initLoop E t settings with
      nextClusterNum := wrapClusterNum settings (initLoop E t settings).nextClusterNum }
      (.setAttribute headerKey attrNextClusterNum
        (some (.integer (wrapClusterNum settings (initLoop E t settings).nextClusterNum))))
    refine ⟨hv.inTransaction.trans hs.outside,hv.settings.trans hs.settings_eq,
      hv.nextProcNum.trans hs.nextProcNum,hv.activeClusterNum.trans hs.activeClusterNum,?_⟩
    rw [keys_log_of_none hs.outside]
    exact hs.keys
  · split at h
    · simp at h
    · cases h
      exact hstart _

theorem started_initJobQueue {settings : ClusterSettings}
    (h : initJobQueue E t settings = some q) : Started t settings q := by
  have hs := started_initFromAds h
  exact ⟨hs.outside,hs.settings_eq,hs.nextProcNum,hs.activeClusterNum,keys_reread E t ▸ hs.keys⟩

def NotHeader (id : ProcId) : Prop := id ≠ headerKey

instance : DecidablePred NotHeader := fun id => inferInstanceAs (Decidable (id ≠ headerKey))

/-- A job is made only when the number in the header ad is past its cluster: the transaction of
`NewCluster` has not been aborted. -/
def Registered (q : Qmgmt) : Request → Prop
  | .newProc c => c = q.activeClusterNum → q.settings.maximum = 0 →
    ∀ n ∈ headerNum q.jobQueue.view, c + q.settings.increment ≤ n
  | r => r.SparesHeader

instance (q : Qmgmt) : ∀ r : Request, Decidable (q.Registered r)
  | .newProc c => inferInstanceAs (Decidable (c = q.activeClusterNum → q.settings.maximum = 0 →
      ∀ n ∈ headerNum q.jobQueue.view, c + q.settings.increment ≤ n))
  | .destroyProc id | .setAttribute id .. | .setTimerAttribute id .. | .deleteAttribute id _ =>
    inferInstanceAs (Decidable (id.cluster ≠ 0))
  | .newCluster | .destroyCluster _ | .setAttributeByConstraint .. | .getAttribute ..
  | .beginTransaction | .commitTransaction | .abortTransaction => .isTrue trivial

/-- A start without a maximum finds the header ad ahead of the clusters by the increment. -/
def Restartable (t : JobTable) (last : Option ClusterSettings) (s : ClusterSettings) : Prop :=
  s.maximum = 0 → last.isNone = true ∨ ∃ n ∈ headerNum t, s.initial ≤ n ∧
    ((∃ l ∈ last, l.maximum = 0 ∧ s.increment ≤ l.increment) ∨
      ∀ id ∈ t.keys, NotHeader id → id.cluster + s.increment ≤ n)
deriving Decidable

private theorem initFromAds_of_stored {s : ClusterSettings} {n : Int}
    (hn : headerNum t = some n) (hmax : s.maximum = 0) (hinit : s.initial ≤ n)
    (hjobs : ∀ id ∈ t.keys, id.isJob = true → id.cluster + s.increment ≤ n) :
    ∃ q, initFromAds E t s = some q ∧ q.nextClusterNum = n ∧
      headerNum q.jobQueue.committed = some n ∧ q.keys ⊆ t.keys := by
  have hpos := s.initial_pos
  have hw := headerNum_withHeader s hn
  have hloop := looped_initLoop E t s
  rw [hw] at hloop
  have hle : (initLoop E t s).nextClusterNum ≤ n := by
    apply hloop.bounded n hinit
    intro e he hj
    exact hjobs e.1 (mem_map_of_mem (f := Prod.fst) he) hj
  refine ⟨{ initLoop E t s with nextClusterNum := n },?_,rfl,?_,?_⟩
  · rw [initFromAds,storedClusterNum_eq hn hmax,wrapClusterNum_none hmax]
    dsimp only
    rw [if_neg (by omega),if_neg (by omega)]
  · exact (hloop.header rfl).trans hn
  · exact hloop.keys rfl

private theorem initJobQueue_of_stored {s : ClusterSettings} {n : Int}
    (hn : headerNum t = some n) (hmax : s.maximum = 0) (hinit : s.initial ≤ n)
    (hjobs : ∀ id ∈ t.keys, id.isJob = true → id.cluster + s.increment ≤ n) :
    ∃ q, initJobQueue E t s = some q ∧ q.nextClusterNum = n ∧
      headerNum q.jobQueue.committed = some n ∧ q.keys ⊆ t.keys := by
  rw [← keys_reread E t] at hjobs ⊢
  exact initFromAds_of_stored ((headerNum_reread E t).trans hn) hmax hinit hjobs

theorem initJobQueue_nil (E : Env) (s : ClusterSettings) :
    ∃ q, initJobQueue E [] s = some q ∧ q.keys = [headerKey] ∧ q.inTransaction = false ∧
      q.nextClusterNum = wrapClusterNum s s.initial ∧
      headerNum q.jobQueue.committed = some q.nextClusterNum := by
  have hstored : storedClusterNum E [] s = 0 := by
    rw [storedClusterNum]
    exact ite_self 0
  change ∃ q, initFromAds E [] s = some q ∧ _
  rw [initFromAds,hstored,if_pos rfl]
  refine ⟨_,rfl,?_,?_,?_,?_⟩
  · rfl
  · rfl
  · rfl
  · exact headerNum_play_lookup (t := [(headerKey,⟨fun _ => none,false⟩)]) rfl _

theorem numbered_of_committed (hout : q.inTransaction = false)
    (h : StoredIn p gap q.nextClusterNum q.jobQueue.committed) : Numbered p gap q := by
  have hp : q.jobQueue.pending = none := by simpa [inTransaction] using hout
  refine ⟨h,?_⟩
  rw [Ledger.view_of_none QueueOp.play hp]
  exact h

theorem Numbered.unsetQmgmtConnection (h : Numbered p gap q) :
    Numbered p gap q.unsetQmgmtConnection := h.abortTransaction

theorem Numbered.disconnect (h : Numbered p gap q) : Numbered p gap q.disconnect := by
  rw [Qmgmt.disconnect,abortTransactionAndRecomputeClusters]
  split
  · exact h.unsetQmgmtConnection.abortTransaction
  · exact h.unsetQmgmtConnection

theorem Numbered.doQRequest (h : Numbered p gap q) (hgap : gap ≤ q.settings.increment)
    (hmax : q.settings.maximum = 0) {r : Request} (hs : r.SparesHeader)
    (hstored : ∀ c, r = .newProc c → c = q.activeClusterNum → p q.nextProc →
      ∀ n, headerNum q.jobQueue.view = some n → c + gap ≤ n) {res : Qmgmt × Int}
    (hr : q.doQRequest E r = some res) : Numbered p gap res.1 := by
  by_cases hc : r = .newCluster
  · subst hc
    cases hr
    exact h.newCluster hgap hmax
  by_cases hp : ∃ c, r = .newProc c
  · obtain ⟨c,rfl⟩ := hp
    cases hr
    exact h.newProc (hstored c rfl)
  by_cases hb : r = .beginTransaction
  · subst hb
    exact h.beginTransaction (begin_of_doQRequest hr)
  by_cases hcommit : r = .commitTransaction
  · subst hcommit
    cases hr
    exact h.commitTransaction
  by_cases ha : r = .abortTransaction
  · subst ha
    cases hr
    exact h.abortTransaction
  · exact h.shrunk (.doQRequest hs hc (fun c he => hp ⟨c,he⟩) hb hcommit ha hr)
      (SameNums.doQRequest hc (fun c he => hp ⟨c,he⟩) hr).nextClusterNum

theorem Registered.sparesHeader {r : Request} (h : q.Registered r) : r.SparesHeader := by
  cases r with
  | newProc c => exact trivial
  | _ => exact h

private theorem settings_newCluster (E : Env) (q : Qmgmt) :
    (q.newCluster E).1.settings = q.settings := by
  rcases newCluster_cases E q with h' | ⟨-,h'⟩ | h' | h' <;> rw [h'] <;> rfl

private theorem settings_newProc (E : Env) (q : Qmgmt) (c : Int) :
    (q.newProc E c).1.settings = q.settings := by
  rcases newProc_cases E q c with h' | ⟨-,h'⟩ | ⟨-,-,h'⟩
  · rw [h']
  · rw [h']
  · rw [h']
    rfl

private theorem settings_step {a : Event} (h : q.step a = some q') : q'.settings = q.settings := by
  cases a with
  | connect E peer =>
    exact (SameNums.beginTransaction (q := { q.unsetQmgmtConnection with peer := some peer })
      h).settings
  | request E r =>
    rw [step,map_eq_some_iff] at h
    obtain ⟨res,hres,rfl⟩ := h
    by_cases hc : r = .newCluster
    · subst hc
      cases hres
      exact settings_newCluster E q
    by_cases hp : ∃ c, r = .newProc c
    · obtain ⟨c,rfl⟩ := hp
      cases hres
      exact settings_newProc E q c
    · exact (SameNums.doQRequest hc (fun c he => hp ⟨c,he⟩) hres).settings
  | disconnect =>
    cases h
    rfl

theorem Numbered.step (h : Numbered NotHeader q.settings.increment q)
    (hmax : q.settings.maximum = 0) {a : Event}
    (hok : ∀ E r, a = .request E r → q.Registered r) (hs : q.step a = some q') :
    Numbered NotHeader q'.settings.increment q' := by
  rw [settings_step hs]
  cases a with
  | connect E peer =>
    have hc : Numbered NotHeader q.settings.increment
        { q.unsetQmgmtConnection with peer := some peer } := h.unsetQmgmtConnection
    exact hc.beginTransaction hs
  | request E r =>
    rw [Qmgmt.step,map_eq_some_iff] at hs
    obtain ⟨res,hres,rfl⟩ := hs
    have hreg := hok E r rfl
    refine h.doQRequest (le_refl _) hmax hreg.sparesHeader ?_ hres
    rintro c rfl hc - n hn
    exact hreg hc hmax n hn
  | disconnect =>
    cases hs
    exact h.disconnect

end Qmgmt

namespace World

open Qmgmt

/-- What is known of a schedd and its disk: without a maximum the number in the header ad is
ahead of all clusters by the increment. -/
def Ahead : World → Prop
  | down t none => t = []
  | down t (some s) => s.maximum = 0 → ∃ next, StoredIn NotHeader s.increment next t
  | up q => q.settings.maximum = 0 → Numbered NotHeader q.settings.increment q

def Event.Orderly : World → Event → Prop
  | down t last, .start _ settings => Restartable t last settings
  | up q, .queue (.request _ r) => q.Registered r
  | _, _ => True

instance : ∀ (w : World) (a : Event), Decidable (a.Orderly w)
  | down t last, .start _ settings => inferInstanceAs (Decidable (Restartable t last settings))
  | up q, .queue (.request _ r) => inferInstanceAs (Decidable (q.Registered r))
  | down _ _, .queue _ | down _ _, .crash | up _, .start _ _ | up _, .queue (.connect _ _)
  | up _, .queue .disconnect | up _, .crash => .isTrue trivial

theorem Ahead.start {last : Option ClusterSettings} (h : Ahead (down t last))
    (E : Env) {s : ClusterSettings} (hs : Restartable t last s) (hmax : s.maximum = 0) :
    ∃ q, initJobQueue E t s = some q ∧ Numbered NotHeader q.settings.increment q ∧
      ∀ id ∈ t.keys, NotHeader id → id.cluster ≠ q.nextClusterNum := by
  have hinc := s.increment_pos
  have hinit := s.initial_pos
  rcases hs hmax with hnone | ⟨n,hn,hle,hids⟩
  · obtain rfl : last = none := by simpa using hnone
    obtain rfl : t = [] := h
    obtain ⟨q,hq,hkeys,hout,hnext,hnum⟩ := initJobQueue_nil E s
    refine ⟨q,hq,numbered_of_committed hout ⟨q.nextClusterNum,hnum,?_,le_refl _,?_⟩,by simp⟩
    · rw [hnext,wrapClusterNum_none hmax]
      exact hinit
    · rintro id hid hne
      change id ∈ q.keys at hid
      rw [hkeys,mem_singleton] at hid
      exact absurd hid hne
  · have hgap : ∀ id ∈ t.keys, NotHeader id → id.cluster + s.increment ≤ n := by
      rcases hids with ⟨l,hl,hlmax,hlinc⟩ | hids
      · obtain rfl : last = some l := hl
        obtain ⟨next,m,hm,-,-,hall⟩ := h hlmax
        obtain rfl : m = n := some.inj (hm.symm.trans hn)
        intro id hid hne
        have hid' := hall id hid hne
        omega
      · exact hids
    have hjobs : ∀ id ∈ t.keys, id.isJob = true → id.cluster + s.increment ≤ n := by
      intro id hid hj
      refine hgap id hid fun he => ?_
      rw [he] at hj
      exact absurd hj (by decide)
    obtain ⟨q,hq,hnext,hnum,hkeys⟩ := initJobQueue_of_stored (E := E) hn hmax hle hjobs
    have hst := started_initJobQueue hq
    refine ⟨q,hq,numbered_of_committed hst.outside ⟨n,hnum,by omega,by omega,?_⟩,?_⟩
    · intro id hid hne
      rw [hst.settings_eq]
      exact hgap id (hkeys hid) hne
    · intro id hid hne
      have hid' := hgap id hid hne
      omega

theorem Ahead.crash {q : Qmgmt} (h : Ahead (up q)) :
    Ahead (down q.jobQueue.committed (some q.settings)) :=
  fun hmax => ⟨q.nextClusterNum,(h hmax).1⟩

theorem Ahead.step {w w' : World} {a : Event} (h : Ahead w) (hok : a.Orderly w)
    (hs : w.step a = some w') : Ahead w' := by
  cases w with
  | down t last =>
    cases a with
    | start E s =>
      rw [World.step,map_eq_some_iff] at hs
      obtain ⟨q,hq,rfl⟩ := hs
      intro hmax
      rw [(started_initJobQueue hq).settings_eq] at hmax
      obtain ⟨q',hq',hnum,-⟩ := h.start E hok hmax
      rw [hq] at hq'
      cases hq'
      exact hnum
    | queue | crash => simp [World.step] at hs
  | up q =>
    cases a with
    | start E s => simp [World.step] at hs
    | queue a =>
      dsimp only [World.step] at hs
      split at hs
      · next q' hq' =>
        cases hs
        intro hmax
        rw [settings_step hq'] at hmax
        refine (h hmax).step hmax ?_ hq'
        rintro E r rfl
        exact hok
      · cases hs
        exact h.crash
    | crash =>
      cases hs
      exact h.crash

/-- A schedd that is down can be started with any settings that meet the condition, and without a
maximum the number it goes on with belongs to no cluster. -/
theorem restart_succeeds {as : List Event}
    (hok : Along World.step (fun w a => a.Orderly w) World.initial as) {t : JobTable}
    {last : Option ClusterSettings} (hr : run World.step World.initial as = some (down t last))
    (E : Env) (s : ClusterSettings) (hs : Restartable t last s) :
    ∃ q, initJobQueue E t s = some q ∧
      (s.maximum = 0 → ∀ id ∈ t.keys, id ≠ headerKey → id.cluster ≠ q.nextClusterNum) := by
  have h : Ahead (down t last) :=
    run_invariant (fun _ _ _ hw ha hs => hw.step ha hs) hok (show Ahead World.initial from rfl) hr
  by_cases hmax : s.maximum = 0
  · obtain ⟨q,hq,-,hids⟩ := h.start E hs hmax
    exact ⟨q,hq,fun _ => hids⟩
  · have hnonneg := s.maximum_nonneg
    rw [initJobQueue,initFromAds]
    split
    · exact ⟨_,rfl,fun h => absurd h hmax⟩
    · rw [if_neg (by omega)]
      exact ⟨_,rfl,fun h => absurd h hmax⟩

def downWith (P : JobTable → Option ClusterSettings → Bool) : World → Bool
  | down t last => P t last
  | up _ => false

private theorem exists_of_downWith {P : JobTable → Option ClusterSettings → Bool} {w : World}
    (h : downWith P w = true) : ∃ t last, w = down t last ∧ P t last = true := by
  cases w with
  | down t last => exact ⟨t,last,rfl,h⟩
  | up q => simp [downWith] at h

def submitAndCrash : List Event :=
  [.start plainEnv plainSettings,
    .queue (.connect plainEnv (plainPeer (cstr "alice"))),
    .queue (.request plainEnv .newCluster),
    .queue (.request plainEnv (.newProc 1)),
    .queue (.request plainEnv .commitTransaction),
    .crash]

theorem restart_succeeds_submitAndCrash :
    ∃ t last q, run World.step World.initial submitAndCrash = some (down t last) ∧
      (⟨1,0⟩ : ProcId) ∈ t.keys ∧ initJobQueue plainEnv t plainSettings = some q ∧
      ∀ id ∈ t.keys, id ≠ headerKey → id.cluster ≠ q.nextClusterNum := by
  have hok : Along World.step (fun w a => a.Orderly w) World.initial submitAndCrash := by
    decide
  obtain ⟨w,hr,hw⟩ := run_exists World.step World.initial submitAndCrash
    (downWith fun t last => decide ((⟨1,0⟩ : ProcId) ∈ t.keys) &&
      decide (Restartable t last plainSettings)) (by decide)
  obtain ⟨t,last,rfl,hP⟩ := exists_of_downWith hw
  rw [Bool.and_eq_true,decide_eq_true_eq,decide_eq_true_eq] at hP
  obtain ⟨q,hq,hids⟩ := restart_succeeds hok hr plainEnv plainSettings hP.2
  exact ⟨t,last,q,hr,hP.1,hq,hids rfl⟩

/-- A job is put into a cluster whose making was aborted: the schedd does not come up again. -/
theorem restart_fails_after_abort :
    ∃ t last, run World.step World.initial
        [.start plainEnv plainSettings,
          .queue (.connect plainEnv (plainPeer (cstr "alice"))),
          .queue (.request plainEnv .newCluster),
          .queue (.request plainEnv .abortTransaction),
          .queue (.request plainEnv (.newProc 1)),
          .crash] = some (down t last) ∧
      initJobQueue plainEnv t plainSettings = none := by
  obtain ⟨w,hr,hw⟩ := run_exists World.step World.initial
    [.start plainEnv plainSettings,
      .queue (.connect plainEnv (plainPeer (cstr "alice"))),
      .queue (.request plainEnv .newCluster),
      .queue (.request plainEnv .abortTransaction),
      .queue (.request plainEnv (.newProc 1)),
      .crash]
    (downWith fun t _ => (initJobQueue plainEnv t plainSettings).isNone) (by decide)
  obtain ⟨t,last,rfl,hP⟩ := exists_of_downWith hw
  exact ⟨t,last,hr,Option.isNone_iff_eq_none.mp hP⟩

end World

end Condor.Schedd
