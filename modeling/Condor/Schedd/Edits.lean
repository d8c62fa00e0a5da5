import Condor.Schedd.Clusters

/-!
# What the writing of attributes can do

`Edited P K q q'` says that `q'` follows from `q` by records that satisfy `P` and by changes in
memory to committed ads whose ids satisfy `K`.
-/

namespace Condor.Schedd

open Lib List Option

namespace Qmgmt

inductive Edited (P : QueueOp → Prop) (K : ProcId → Prop) (q : Qmgmt) : Qmgmt → Prop
  | refl : Edited P K q q
  | log {q' : Qmgmt} (h : Edited P K q q') {op : QueueOp} (hop : P op) : Edited P K q (q'.log op)
  | forget {q' : Qmgmt} (h : Edited P K q q') {id : ProcId} (hid : K id) :
    Edited P K q (q'.dropAutoCluster id)
  | touch {q' : Qmgmt} (h : Edited P K q q') (history : List CString) (dirty : Bool) :
    Edited P K q { q' with ownerHistory := history, prioRecArrayIsDirty := dirty }

variable {P P' : QueueOp → Prop} {K K' : ProcId → Prop} {E : Env} {q q' q'' : Qmgmt}

theorem Edited.trans (h : Edited P K q q') (h' : Edited P K q' q'') : Edited P K q q'' := by
  induction h' with
  | refl => exact h
  | log _ hop ih => exact ih.log hop
  | forget _ hid ih => exact ih.forget hid
  | touch _ history dirty ih => exact ih.touch history dirty

theorem Edited.mono (h : Edited P K q q') (hP : ∀ op, P op → P' op) (hK : ∀ id, K id → K' id) :
    Edited P' K' q q' := by
  induction h with
  | refl => exact .refl
  | log _ hop ih => exact ih.log (hP _ hop)
  | forget _ hid ih => exact ih.forget (hK _ hid)
  | touch _ history dirty ih => exact ih.touch history dirty

structure SameVars (q q' : Qmgmt) : Prop where
  nextClusterNum : q'.nextClusterNum = q.nextClusterNum
  nextProcNum : q'.nextProcNum = q.nextProcNum
  activeClusterNum : q'.activeClusterNum = q.activeClusterNum
  clusterSize : q'.clusterSize = q.clusterSize
  totalJobsCount : q'.totalJobsCount = q.totalJobsCount
  xactStartTime : q'.xactStartTime = q.xactStartTime
  settings : q'.settings = q.settings
  peer : q'.peer = q.peer
  inTransaction : q'.inTransaction = q.inTransaction

theorem SameVars.refl (q : Qmgmt) : SameVars q q := ⟨rfl,rfl,rfl,rfl,rfl,rfl,rfl,rfl,rfl⟩

theorem SameVars.trans (h : SameVars q q') (h' : SameVars q' q'') : SameVars q q'' where
  nextClusterNum := h'.nextClusterNum.trans h.nextClusterNum
  nextProcNum := h'.nextProcNum.trans h.nextProcNum
  activeClusterNum := h'.activeClusterNum.trans h.activeClusterNum
  clusterSize := h'.clusterSize.trans h.clusterSize
  totalJobsCount := h'.totalJobsCount.trans h.totalJobsCount
  xactStartTime := h'.xactStartTime.trans h.xactStartTime
  settings := h'.settings.trans h.settings
  peer := h'.peer.trans h.peer
  inTransaction := h'.inTransaction.trans h.inTransaction

theorem SameVars.log (q : Qmgmt) (op : QueueOp) : SameVars q (q.log op) :=
  ⟨rfl,rfl,rfl,rfl,rfl,rfl,rfl,rfl,Ledger.pending_append_isSome ..⟩

theorem Edited.sameVars (h : Edited P K q q') : SameVars q q' := by
  induction h with
  | refl => exact .refl q
  | log _ _ ih => exact ih.trans (.log _ _)
  | forget _ _ ih | touch _ _ _ ih => exact ih.trans ⟨rfl,rfl,rfl,rfl,rfl,rfl,rfl,rfl,rfl⟩

def viewKeys (q : Qmgmt) : List ProcId := q.jobQueue.view.keys

def keys (q : Qmgmt) : List ProcId := q.jobQueue.committed.keys

theorem keys_playAll (ops : List QueueOp) (t : JobTable) :
    (Ledger.playAll QueueOp.play ops t).keys = ops.foldl (fun ks op => op.playKeys ks) t.keys := by
  induction ops generalizing t with
  | nil => rfl
  | cons op ops ih => rw [Ledger.playAll_cons,ih,QueueOp.keys_play,foldl_cons]

@[simp] theorem viewKeys_log (q : Qmgmt) (op : QueueOp) :
    (q.log op).viewKeys = op.playKeys q.viewKeys :=
  (congrArg Table.keys (Ledger.view_append QueueOp.play q.jobQueue op)).trans
    (QueueOp.keys_play op _)

theorem viewKeys_of_none {q : Qmgmt} (h : q.inTransaction = false) : q.viewKeys = q.keys := by
  have hp : q.jobQueue.pending = none := Option.not_isSome_iff_eq_none.mp (by
    rw [inTransaction] at h
    simp [h])
  exact congrArg Table.keys (Ledger.view_of_none QueueOp.play hp)

theorem keys_log_of_transaction {q : Qmgmt} (h : q.inTransaction = true) (op : QueueOp) :
    (q.log op).keys = q.keys := by
  obtain ⟨ops,hops⟩ := Option.isSome_iff_exists.mp h
  exact congrArg Table.keys (Ledger.committed_append QueueOp.play hops op)

theorem keys_log_of_none {q : Qmgmt} (h : q.inTransaction = false) (op : QueueOp) :
    (q.log op).keys = op.playKeys q.keys := by
  have h' : (q.log op).inTransaction = false := (SameVars.log q op).inTransaction.trans h
  rw [← viewKeys_of_none h',viewKeys_log,viewKeys_of_none h]

@[simp] theorem keys_dropAutoCluster (q : Qmgmt) (id : ProcId) :
    (q.dropAutoCluster id).keys = q.keys := Table.keys_adjust ..

@[simp] theorem viewKeys_dropAutoCluster (q : Qmgmt) (id : ProcId) :
    (q.dropAutoCluster id).viewKeys = q.viewKeys := by
  have hk : (q.dropAutoCluster id).jobQueue.committed.keys = q.jobQueue.committed.keys :=
    keys_dropAutoCluster q id
  rw [viewKeys,viewKeys,JobQueue.view,JobQueue.view,Ledger.view,Ledger.view,keys_playAll,
    keys_playAll,hk]
  rfl

theorem Edited.viewKeys (h : Edited P K q q') (hP : ∀ op, P op → ∀ ks, op.playKeys ks = ks) :
    q'.viewKeys = q.viewKeys := by
  induction h with
  | refl => rfl
  | log _ hop ih => rw [viewKeys_log,hP _ hop,ih]
  | forget _ _ ih => rw [viewKeys_dropAutoCluster,ih]
  | touch _ _ _ ih => exact ih

theorem Edited.keys (h : Edited P K q q') (hP : ∀ op, P op → ∀ ks, op.playKeys ks = ks) :
    q'.keys = q.keys := by
  induction h with
  | refl => rfl
  | @log q' h op hop ih =>
    cases hin : q'.inTransaction with
    | true => rw [keys_log_of_transaction hin,ih]
    | false => rw [keys_log_of_none hin,hP _ hop,ih]
  | forget _ _ ih => rw [keys_dropAutoCluster,ih]
  | touch _ _ _ ih => exact ih

def Sets (id : ProcId) (op : QueueOp) : Prop := ∃ n v, op = .setAttribute id n v

theorem Sets.playKeys {id : ProcId} {op : QueueOp} (h : Sets id op) (ks : List ProcId) :
    op.playKeys ks = ks := by
  obtain ⟨n,v,rfl⟩ := h
  rfl

section

variable {id : ProcId} {ad : Option QueueAd} {name : CString} {value : Option CString}
  {flags : Flags}

private theorem forgetAutoCluster_edited (E : Env) (q : Qmgmt) (id : ProcId) (ad : Option QueueAd)
    (n : AttrName) : Edited P (· = id) q (q.forgetAutoCluster E id ad n) := by
  rw [forgetAutoCluster]
  split
  · exact Edited.refl.forget rfl
  · exact .refl

def rawName (name : CString) : AttrName := attrName (name ++ cstr "_RAW")

private theorem roundAttribute_edited {r : Qmgmt × Option CString}
    (hraw : ∀ v, P (.setAttribute id (rawName name) v))
    (h : q.roundAttribute E id ad name value flags = some r) :
    Edited P (· = id) q r.1 ∧ (E.roundParam name = false → r.2 = value) := by
  unfold roundAttribute at h
  split at h
  · next hround =>
    cases value with
    | none => simp at h
    | some v =>
      dsimp only at h
      split at h
      · cases h
        exact ⟨.refl,fun _ => rfl⟩
      · split at h
        · simp at h
        · cases h
          exact ⟨Edited.refl.log (hraw _),fun hno => absurd (hno.symm.trans hround) (by decide)⟩
  · cases h
    exact ⟨.refl,fun _ => rfl⟩

private theorem touchPrioRec_edited {n : AttrName} (h : q.touchPrioRec n value = some q') :
    Edited P K q q' := by
  unfold touchPrioRec at h
  split at h
  · cases h
    exact .refl
  · split at h
    · cases h
      exact Edited.refl.touch _ _
    · split at h
      · cases value with
        | none => simp at h
        | some v =>
          cases h
          exact Edited.refl.touch _ _
      · cases h
        exact .refl

private theorem storeAttribute_edited (hraw : ∀ v, P (.setAttribute id (rawName name) v))
    (hname : ∀ v, (E.roundParam name = false → v = value) →
      P (.setAttribute id (attrName name) (valueExpr E v)))
    (h : q.storeAttribute E id ad name value flags = some q') : Edited P (· = id) q q' := by
  rw [storeAttribute,bind_eq_some_iff] at h
  obtain ⟨r,hr,h⟩ := h
  rw [bind_eq_some_iff] at h
  obtain ⟨q1,hq1,h⟩ := h
  obtain ⟨hrounded,hvalue⟩ := roundAttribute_edited hraw hr
  have hwritten : Edited P (· = id) q
      (q1.log (.setAttribute id (attrName name) (valueExpr E r.2))) :=
    (((forgetAutoCluster_edited E q id ad _).trans hrounded).trans
      (touchPrioRec_edited hq1)).log (hname r.2 hvalue)
  dsimp only at h
  split at h
  · simp at h
  · split at h
    · simp at h
    · cases h
      exact hwritten

private theorem rawName_ne_owner (name : CString) : rawName name ≠ attrOwner := by
  intro h
  have hlast := congrArg List.getLast? h
  have hw : ((bytes (cstr "_RAW")).map tolower).getLast? = some 119 := by decide
  rw [rawName,attrName,bytes_append,map_append,getLast?_append,hw,some_or] at hlast
  exact absurd hlast (by decide)

def SetsName (id : ProcId) (name : CString) (op : QueueOp) : Prop :=
  ∃ n v, (n = attrName name ∨ n = rawName name) ∧ op = .setAttribute id n v

variable {r : Qmgmt × Int}

private theorem setOrdinary_setsName (h : q.setOrdinary E id name value flags = some r) :
    Edited (SetsName id name) (· = id) q r.1 := by
  rw [setOrdinary] at h
  split at h
  · cases h
    exact .refl
  · rw [map_eq_some_iff] at h
    obtain ⟨q1,hq1,rfl⟩ := h
    exact storeAttribute_edited (fun v => ⟨_,v,.inr rfl,rfl⟩) (fun v _ =>
      ⟨_,_,.inl rfl,rfl⟩) hq1

theorem setOrdinary_edited
    (hP : ∀ n v, n ≠ attrOwner → P (.setAttribute id n v)) (hname : attrName name ≠ attrOwner)
    (h : q.setOrdinary E id name value flags = some r) : Edited P (· = id) q r.1 := by
  refine (setOrdinary_setsName h).mono ?_ fun _ hk => hk
  rintro op ⟨n,v,rfl | rfl,rfl⟩
  · exact hP _ v hname
  · exact hP _ v (rawName_ne_owner name)

private theorem specialAttribute_edited {n : AttrName} {r : Qmgmt × Option CString}
    (hP : ∀ n v, n ≠ attrOwner → P (.setAttribute id n v))
    (h : q.specialAttribute E id n value flags = some (some r)) :
    Edited P (· = id) q r.1 ∧
      (n = attrOwner → ∃ v owner v', r.2 = some v' ∧ q.checkOwner E id v = some (owner,v')) := by
  unfold specialAttribute at h
  split at h
  · rw [bind_eq_some_iff] at h
    obtain ⟨v,-,h⟩ := h
    split at h
    · simp at h
    · next owner v' hcheck =>
      simp only [map_eq_some_iff,Option.some.injEq] at h
      obtain ⟨r',hr',rfl⟩ := h
      exact ⟨(setOrdinary_edited hP (by decide) hr').touch _ _,
        fun _ => ⟨v,owner,v',rfl,hcheck⟩⟩
  · next hn =>
    refine ⟨?_,fun he => absurd he hn⟩
    split at h
    · rw [map_eq_some_iff] at h
      obtain ⟨v,-,h⟩ := h
      split at h
      · simp at h
      · cases h
        exact .refl
    · split at h
      · rw [bind_eq_some_iff] at h
        obtain ⟨v,-,h⟩ := h
        split at h
        · cases h
          exact .refl
        · simp only [map_eq_some_iff,Option.some.injEq] at h
          obtain ⟨r',hr',rfl⟩ := h
          exact setOrdinary_edited hP (by decide) hr'
      · split at h
        · rw [map_eq_some_iff] at h
          obtain ⟨v,-,h⟩ := h
          split at h
          · simp at h
          · cases h
            exact .refl
        · split at h
          · simp only [map_eq_some_iff,Option.some.injEq] at h
            obtain ⟨r',hr',rfl⟩ := h
            exact setOrdinary_edited hP (by decide) hr'
          · cases h
            exact .refl

/-- `SetAttribute` writes nothing for the owner but what `checkOwner` has let through, unless
that is rounded. -/
theorem setAttribute_edited_of {name : Option CString}
    (hP : ∀ n v, n ≠ attrOwner → P (.setAttribute id n v))
    (hO : ∀ s, attrName s = attrOwner → ∀ v, (E.roundParam s = false →
      ∃ v' v'' owner, v = some v'' ∧ q.checkOwner E id v' = some (owner,v'')) →
      P (.setAttribute id attrOwner (valueExpr E v)))
    (h : q.setAttribute E id name value flags = some r) : Edited P (· = id) q r.1 := by
  unfold setAttribute at h
  split at h
  · cases h
    exact .refl
  · dsimp only at h
    rw [bind_eq_some_iff] at h
    obtain ⟨s,hs,h⟩ := h
    cases s with
    | none =>
      cases h
      exact .refl
    | some s =>
      simp only [map_eq_some_iff] at h
      obtain ⟨q1,hq1,rfl⟩ := h
      obtain ⟨hspecial,howner⟩ := specialAttribute_edited hP hs
      refine hspecial.trans (storeAttribute_edited
        (fun v => hP _ v (rawName_ne_owner (name.getD []))) (fun v hv => ?_) hq1)
      by_cases hn : attrName (name.getD []) = attrOwner
      · rw [hn]
        refine hO _ hn v fun hround => ?_
        obtain ⟨v',owner,v'',hs2,hcheck⟩ := howner hn
        exact ⟨v',v'',owner,(hv hround).trans hs2,hcheck⟩
      · exact hP _ _ hn

theorem setAttribute_edited {name : Option CString}
    (h : q.setAttribute E id name value flags = some r) : Edited (Sets id) (· = id) q r.1 :=
  setAttribute_edited_of (fun n v _ => ⟨n,v,rfl⟩) (fun _ _ _ _ => ⟨_,_,rfl⟩) h

theorem destroyMyProxyPassword_edited_of (hP : ∀ n v, n ≠ attrOwner → P (.setAttribute id n v))
    (h : q.destroyMyProxyPassword E id = some q') : Edited P (· = id) q q' := by
  rw [destroyMyProxyPassword] at h
  split at h
  · cases h
    exact .refl
  · rw [bind_eq_some_iff] at h
    obtain ⟨r,hr,h⟩ := h
    split at h
    · simp at h
    · cases h
      exact setOrdinary_edited hP (by decide) hr

theorem destroyMyProxyPassword_edited (h : q.destroyMyProxyPassword E id = some q') :
    Edited (Sets id) (· = id) q q' :=
  destroyMyProxyPassword_edited_of (fun n v _ => ⟨n,v,rfl⟩) h

def passwordKey (id : ProcId) : ProcId := if id.proc = -1 then ⟨id.cluster,0⟩ else id

theorem cluster_passwordKey (id : ProcId) : (passwordKey id).cluster = id.cluster := by
  rw [passwordKey]
  split <;> rfl

theorem setMyProxyPassword_edited (h : q.setMyProxyPassword E id = some r) :
    Edited (Sets (passwordKey id)) (· = passwordKey id) q r.1 := by
  rw [setMyProxyPassword,bind_eq_some_iff] at h
  obtain ⟨r1,hr1,h⟩ := h
  split at h
  · simp at h
  · have he : Edited (Sets (passwordKey id)) (· = passwordKey id) q r1.1 :=
      setOrdinary_edited (fun n v _ => ⟨n,v,rfl⟩) (by decide) hr1
    cases h
    exact he

theorem setTimerAttribute_edited {name : Option CString} {duration : Int}
    (h : q.setTimerAttribute E id name duration = some r) : Edited (Sets id) (· = id) q r.1 := by
  rw [setTimerAttribute] at h
  split at h
  · cases h
    exact .refl
  · exact setAttribute_edited h

theorem deleteAttribute_edited {name : Option CString} (h : q.deleteAttribute E id name = some r) :
    Edited (fun op => ∃ n, op = .deleteAttribute id n) (· = id) q r.1 := by
  unfold deleteAttribute at h
  dsimp only at h
  split at h
  · cases h
    exact .refl
  · split at h
    · cases h
      exact .refl
    · cases name with
      | none => simp at h
      | some s =>
        cases h
        exact Edited.refl.log ⟨_,rfl⟩

theorem stampCompletion_setsName {attrs : Attrs} (h : q.stampCompletion E id attrs = some q') :
    Edited (SetsName id (cstr "CompletionDate")) (· = id) q q' := by
  rw [stampCompletion] at h
  split at h
  · rw [map_eq_some_iff] at h
    obtain ⟨r,hr,rfl⟩ := h
    exact setOrdinary_setsName hr
  · cases h
    exact .refl

theorem stampCompletion_edited_of {attrs : Attrs}
    (hP : ∀ n v, n ≠ attrOwner → P (.setAttribute id n v))
    (h : q.stampCompletion E id attrs = some q') : Edited P (· = id) q q' := by
  refine (stampCompletion_setsName h).mono ?_ fun _ hk => hk
  rintro op ⟨n,v,rfl | rfl,rfl⟩
  · exact hP _ v (by decide)
  · exact hP _ v (rawName_ne_owner _)

theorem stampCompletion_edited {attrs : Attrs} (h : q.stampCompletion E id attrs = some q') :
    Edited (Sets id) (· = id) q q' :=
  stampCompletion_edited_of (fun n v _ => ⟨n,v,rfl⟩) h

end

def SetsJobs (op : QueueOp) : Prop := ∃ id : ProcId, 0 < id.cluster ∧ -1 < id.proc ∧ Sets id op

private theorem constraintTurn_edited {constraint name value : Option CString} {flags : Flags}
    {s s' : Matching} {e : ProcId × QueueAd}
    (h : constraintTurn E constraint name value flags s e = some s') :
    Edited SetsJobs (fun id => 0 < id.cluster ∧ -1 < id.proc) s.q s'.q := by
  rw [constraintTurn] at h
  split at h
  · cases h
    exact .refl
  · next hjob =>
    rw [bind_eq_some_iff] at h
    obtain ⟨c,-,h⟩ := h
    dsimp only at h
    split at h
    · rw [map_eq_some_iff] at h
      obtain ⟨r,hr,rfl⟩ := h
      have hid : 0 < e.1.cluster ∧ -1 < e.1.proc := by omega
      refine (setAttribute_edited hr).mono ?_ ?_
      · intro op hop
        exact ⟨e.1,hid.1,hid.2,hop⟩
      · rintro id rfl
        exact hid
    · cases h
      exact .refl

theorem setAttributeByConstraint_edited {constraint name value : Option CString} {flags : Flags}
    {r : Qmgmt × Int} (h : q.setAttributeByConstraint E constraint name value flags = some r) :
    Edited SetsJobs (fun id => 0 < id.cluster ∧ -1 < id.proc) q r.1 := by
  rw [setAttributeByConstraint,map_eq_some_iff] at h
  obtain ⟨s,hs,rfl⟩ := h
  let K (id : ProcId) : Prop := 0 < id.cluster ∧ -1 < id.proc
  have hstep : ∀ s1 e s2, Edited SetsJobs K q s1.q →
      constraintTurn E constraint name value flags s1 e = some s2 → Edited SetsJobs K q s2.q :=
    fun _ _ _ hs hturn => hs.trans (constraintTurn_edited hturn)
  exact run_preserves hstep .refl hs

def DestroysJobs (cluster : Int) (op : QueueOp) : Prop :=
  ∃ id : ProcId, id.cluster = cluster ∧ -1 < id.proc ∧ (Sets id op ∨ op = .destroyClassAd id)

private theorem destroyClusterTurn_edited {cluster : Int} {s s' : Destroying} {e : ProcId × QueueAd}
    (h : destroyClusterTurn E cluster s e = some s') :
    Edited (DestroysJobs cluster) (fun id => id.cluster = cluster ∧ -1 < id.proc) s.q s'.q := by
  rw [destroyClusterTurn] at h
  split at h
  · cases h
    exact .refl
  · next hjob =>
    split at h
    · cases h
      exact .refl
    · rw [map_eq_some_iff] at h
      obtain ⟨q1,hq1,rfl⟩ := h
      have hid : e.1.cluster = cluster ∧ -1 < e.1.proc := by
        simp only [not_or,not_not,not_le] at hjob
        exact ⟨hjob.2.1,hjob.2.2⟩
      have hstamp : Edited (DestroysJobs cluster) (fun id => id.cluster = cluster ∧ -1 < id.proc)
          s.q q1 := by
        refine (stampCompletion_edited hq1).mono ?_ ?_
        · intro op hop
          exact ⟨e.1,hid.1,hid.2,.inl hop⟩
        · rintro id rfl
          exact hid
      split
      · exact hstamp
      · exact hstamp.log ⟨e.1,hid.1,hid.2,.inr rfl⟩

theorem destroyClusterLoop_edited {cluster : Int} {s s' : Destroying} {t : JobTable}
    (h : run (destroyClusterTurn E cluster) s t = some s') :
    Edited (DestroysJobs cluster) (fun id => id.cluster = cluster ∧ -1 < id.proc) s.q s'.q := by
  let K (id : ProcId) : Prop := id.cluster = cluster ∧ -1 < id.proc
  have hstep : ∀ s1 e s2, Edited (DestroysJobs cluster) K s.q s1.q →
      destroyClusterTurn E cluster s1 e = some s2 → Edited (DestroysJobs cluster) K s.q s2.q :=
    fun _ _ _ hs hturn => hs.trans (destroyClusterTurn_edited hturn)
  exact run_preserves hstep .refl h

def Writes (op : QueueOp) : Prop := (∃ id, Sets id op) ∨ ∃ id n, op = .deleteAttribute id n

theorem Writes.playKeys {op : QueueOp} (h : Writes op)
    (ks : List ProcId) : op.playKeys ks = ks := by
  rcases h with ⟨id,h⟩ | ⟨id,n,rfl⟩
  · exact h.playKeys ks
  · rfl

end Qmgmt

def Request.isAttribute : Request → Bool
  | .setAttribute .. => true
  | .setAttributeByConstraint .. => true
  | .setTimerAttribute .. => true
  | .deleteAttribute .. => true
  | .getAttribute .. => true
  | _ => false

namespace Qmgmt

theorem newCluster_cases (E : Env) (q : Qmgmt) :
    q.newCluster E = (q,-1) ∨ E.maxJobsSubmitted ≤ q.totalJobsCount ∧ q.newCluster E = (q,-2) ∨
      q.newCluster E = (q.takeClusterNum,-3) ∨
      q.newCluster E = (q.takeClusterNum.logCluster,q.nextClusterNum) := by
  rw [newCluster]
  split
  · exact .inl rfl
  · split
    · next hmax => exact .inr (.inl ⟨hmax,rfl⟩)
    · split
      · exact .inr (.inr (.inl rfl))
      · exact .inr (.inr (.inr rfl))

theorem newProc_cases (E : Env) (q : Qmgmt) (c : Int) :
    q.newProc E c = (q,-1) ∨ E.maxJobsSubmitted ≤ q.totalJobsCount ∧ q.newProc E c = (q,-2) ∨
      c = q.activeClusterNum ∧ 1 ≤ q.activeClusterNum ∧
        q.newProc E c = (q.logProc E,q.nextProcNum) := by
  rw [newProc]
  split
  · exact .inl rfl
  · split
    · exact .inl rfl
    · split
      · next hmax => exact .inr (.inl ⟨hmax,rfl⟩)
      · exact .inr (.inr ⟨by omega,by omega,rfl⟩)

variable {E : Env} {q : Qmgmt}

theorem begin_of_doQRequest {res : Qmgmt × Int}
    (h : q.doQRequest E .beginTransaction = some res) : q.beginTransaction E = some res.1 := by
  rw [doQRequest,map_eq_some_iff] at h
  obtain ⟨q',hq',rfl⟩ := h
  exact hq'

theorem doQRequest_edited {r : Request} (hr : r.isAttribute = true) {res : Qmgmt × Int}
    (h : q.doQRequest E r = some res) : Edited Writes (fun _ => True) q res.1 := by
  have hmono : ∀ {id : ProcId} {q' : Qmgmt}, Edited (Sets id) (· = id) q q' →
      Edited Writes (fun _ => True) q q' := fun he =>
    he.mono (fun _ hop => .inl ⟨_,hop⟩) fun _ _ => trivial
  cases r with
  | setAttribute id name value flags =>
    rw [doQRequest] at h
    split at h
    · exact hmono (setMyProxyPassword_edited h)
    · exact hmono (setAttribute_edited h)
  | setAttributeByConstraint constraint name value flags =>
    cases name with
    | none => simp [doQRequest] at h
    | some s =>
      dsimp only [doQRequest] at h
      split at h
      · cases h
        exact .refl
      · exact (setAttributeByConstraint_edited h).mono
          (fun _ ⟨id,_,_,hop⟩ => .inl ⟨id,hop⟩) fun _ _ => trivial
  | setTimerAttribute id name duration => exact hmono (setTimerAttribute_edited h)
  | deleteAttribute id name =>
    exact (deleteAttribute_edited h).mono (fun _ ⟨n,hop⟩ => .inr ⟨id,n,hop⟩) fun _ _ => trivial
  | getAttribute id name =>
    cases name with
    | none => simp [doQRequest] at h
    | some s =>
      cases h
      exact .refl
  | newCluster | newProc | destroyProc | destroyCluster | beginTransaction | commitTransaction
  | abortTransaction => simp [Request.isAttribute] at hr

variable {q' q'' : Qmgmt}

theorem viewKeys_beginTransaction (h : q.beginTransaction E = some q') :
    q'.viewKeys = q.viewKeys ∧ q.inTransaction = false := by
  rw [beginTransaction] at h
  split at h
  · simp at h
  · next hin =>
    cases h
    have hfalse : q.inTransaction = false := by simpa using hin
    exact ⟨(viewKeys_of_none hfalse).symm,hfalse⟩

theorem keys_chainToCluster (t : JobTable) (id : ProcId) : (chainToCluster t id).keys = t.keys := by
  rw [chainToCluster]
  split
  · exact Table.keys_adjust ..
  · rfl

theorem keys_commitTransaction (q : Qmgmt) : q.commitTransaction.keys = q.viewKeys := by
  have hchain : ∀ (ids : List ProcId) (t : JobTable),
    (ids.foldl chainToCluster t).keys = t.keys := by
    intro ids
    induction ids with
    | nil => exact fun t => rfl
    | cons id ids ih => exact fun t => (ih _).trans (keys_chainToCluster t id)
  exact hchain _ _

theorem viewKeys_commitTransaction (q : Qmgmt) : q.commitTransaction.viewKeys = q.viewKeys :=
  keys_commitTransaction q

structure SameNums (q q' : Qmgmt) : Prop where
  nextClusterNum : q'.nextClusterNum = q.nextClusterNum
  nextProcNum : q'.nextProcNum = q.nextProcNum
  activeClusterNum : q'.activeClusterNum = q.activeClusterNum
  settings : q'.settings = q.settings
  peer : q'.peer = q.peer

theorem SameNums.refl (q : Qmgmt) : SameNums q q := ⟨rfl,rfl,rfl,rfl,rfl⟩

theorem SameNums.trans (h : SameNums q q') (h' : SameNums q' q'') : SameNums q q'' where
  nextClusterNum := h'.nextClusterNum.trans h.nextClusterNum
  nextProcNum := h'.nextProcNum.trans h.nextProcNum
  activeClusterNum := h'.activeClusterNum.trans h.activeClusterNum
  settings := h'.settings.trans h.settings
  peer := h'.peer.trans h.peer

theorem SameVars.nums (h : SameVars q q') : SameNums q q' :=
  ⟨h.nextClusterNum,h.nextProcNum,h.activeClusterNum,h.settings,h.peer⟩

theorem SameNums.clusterCleanup (q : Qmgmt) (c : Int) : SameNums q (q.clusterCleanup c) :=
  ⟨rfl,rfl,rfl,rfl,rfl⟩

theorem SameNums.decrementClusterSize (q : Qmgmt) (c : Int) :
    SameNums q (q.decrementClusterSize c) := by
  rw [Qmgmt.decrementClusterSize]
  split
  · exact ⟨rfl,rfl,rfl,rfl,rfl⟩
  · split
    · exact ⟨rfl,rfl,rfl,rfl,rfl⟩
    · exact ⟨rfl,rfl,rfl,rfl,rfl⟩

theorem SameNums.beginTransaction (h : q.beginTransaction E = some q') : SameNums q q' := by
  rw [Qmgmt.beginTransaction] at h
  split at h
  · simp at h
  · cases h
    exact ⟨rfl,rfl,rfl,rfl,rfl⟩

theorem SameNums.removeProc {id : ProcId} (h : q.removeProc E id = some q') : SameNums q q' := by
  rw [Qmgmt.removeProc,map_eq_some_iff] at h
  obtain ⟨q1,hq1,rfl⟩ := h
  exact ((destroyMyProxyPassword_edited hq1).sameVars.nums.trans (SameVars.log q1 _).nums).trans
    (.decrementClusterSize _ _)

theorem SameNums.destroyCluster {c : Int} {r : Qmgmt × Int} (h : q.destroyCluster E c = some r) :
    SameNums q r.1 := by
  rw [Qmgmt.destroyCluster] at h
  split at h
  · cases h
    exact .refl q
  · rw [bind_eq_some_iff] at h
    obtain ⟨s,hs,h⟩ := h
    have hloop := (destroyClusterLoop_edited hs).sameVars.nums
    split at h
    · cases h
      exact hloop
    · rw [map_eq_some_iff] at h
      obtain ⟨q1,hq1,rfl⟩ := h
      exact (hloop.trans (.clusterCleanup _ c)).trans
        (destroyMyProxyPassword_edited hq1).sameVars.nums

theorem SameNums.destroyProc {id : ProcId} {r : Qmgmt × Int} (h : q.destroyProc E id = some r) :
    SameNums q r.1 := by
  unfold Qmgmt.destroyProc at h
  split at h
  · cases h
    exact .refl q
  · split at h
    · cases h
      exact .refl q
    · rw [bind_eq_some_iff] at h
      obtain ⟨q1,hq1,h⟩ := h
      refine (stampCompletion_edited hq1).sameVars.nums.trans ?_
      split at h
      · cases h
        exact .refl q1
      · split at h
        · rw [map_eq_some_iff] at h
          obtain ⟨r1,hr1,rfl⟩ := h
          have hc : SameNums q1 r1.1 := SameNums.destroyCluster hr1
          exact hc
        · split at h
          · rw [map_eq_some_iff] at h
            obtain ⟨q2,hq2,rfl⟩ := h
            exact .removeProc hq2
          · rw [bind_eq_some_iff] at h
            obtain ⟨q2,hq2,h⟩ := h
            rw [map_eq_some_iff] at h
            obtain ⟨q3,hq3,rfl⟩ := h
            have h3 : SameNums q1 q3 := (SameNums.beginTransaction hq2).trans (.removeProc hq3)
            exact h3.trans ⟨rfl,rfl,rfl,rfl,rfl⟩

theorem SameNums.doQRequest {r : Request} (hc : r ≠ .newCluster) (hp : ∀ c, r ≠ .newProc c)
    {res : Qmgmt × Int} (h : q.doQRequest E r = some res) : SameNums q res.1 := by
  cases r with
  | newCluster => exact absurd rfl hc
  | newProc c => exact absurd rfl (hp c)
  | destroyProc id => exact .destroyProc h
  | destroyCluster c => exact .destroyCluster h
  | beginTransaction => exact .beginTransaction (begin_of_doQRequest h)
  | commitTransaction | abortTransaction =>
    cases h
    exact ⟨rfl,rfl,rfl,rfl,rfl⟩
  | _ => exact (doQRequest_edited rfl h).sameVars.nums

end Qmgmt

end Condor.Schedd
