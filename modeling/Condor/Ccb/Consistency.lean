import Condor.Ccb.Server

/-!
# The tables of the broker agree

Targets and requests are in their tables under their own ids, each request waits in the table of
the target it names, and nothing that was deleted is referred to.
-/

namespace Condor.Ccb

open Function

namespace CCBTarget

def listed (t : CCBTarget) (id : CCBID) : Option Sock :=
  t.requests.bind fun table => table.lookup id

structure Sound (t : CCBTarget) : Prop where
  unique : ∀ table, t.requests = some table → table.Unique
  rejects : ∀ table, t.requests = some table → table.duplicateKeyBehavior = .rejectDuplicateKeys
  nonempty : ∀ table, t.requests = some table → table.numElems ≠ 0

end CCBTarget

namespace CCBServer

structure Consistent (s : CCBServer) : Prop where
  targets_unique : s.targets.Unique
  targets_rejects : s.targets.duplicateKeyBehavior = .rejectDuplicateKeys
  requests_unique : s.requests.Unique
  requests_rejects : s.requests.duplicateKeyBehavior = .rejectDuplicateKeys
  filed : s.reconnectInfo.Filed
  /-- A target is stored under its own id, has a reconnect record, and every target that exists is
  in the table. -/
  target_stored : ∀ ccbid p, s.targets.lookup ccbid = some p →
    ∃ t, s.targetAt p = some t ∧ t.ccbid = ccbid
  target_record : ∀ ccbid p, s.targets.lookup ccbid = some p → s.reconnectInfo.lookup ccbid ≠ none
  target_live : ∀ p t, s.targetAt p = some t → s.targets.lookup t.ccbid = some p
  target_sound : ∀ p t, s.targetAt p = some t → t.Sound
  request_stored : ∀ id r, s.requests.lookup id = some r →
    ∃ q, s.requestAt r = some q ∧ q.requestId = id
  request_live : ∀ r q, s.requestAt r = some q → s.requests.lookup q.requestId = some r
  /-- A request waits for the target that it names, and for no other. -/
  request_listed : ∀ r q, s.requestAt r = some q → ∃ p t, s.targets.lookup q.targetCcbid = some p ∧
    s.targetAt p = some t ∧ t.listed q.requestId = some r
  listed_request : ∀ p t id r, s.targetAt p = some t → t.listed id = some r →
    ∃ q, s.requestAt r = some q ∧ q.requestId = id ∧ q.targetCcbid = t.ccbid
  /-- The registered sockets are those of existing objects. -/
  registered_target : ∀ p, s.sockTable p = some .handleRequestResultsMsg ↔
    ∃ t, s.targetAt p = some t ∧ t.socketIsRegistered = true
  registered_request : ∀ r, s.sockTable r = some .handleRequestDisconnect ↔
    ∃ q, s.requestAt r = some q
  apart : ∀ p t q, s.targetAt p = some t → s.requestAt p = some q → False
  fresh : ∀ p, s.nextSock ≤ p → s.targetAt p = none ∧ s.requestAt p = none

variable {s s' : CCBServer} {p r : Sock} {t : CCBTarget} {q : CCBServerRequest}

theorem target_eq (h : s.targetAt p = some t) : s.target p = .ok t := by rw [target,h]

theorem request_eq (h : s.requestAt r = some q) : s.request r = .ok q := by rw [request,h]

private theorem targetRemoveRequest_eq (h : s.targetAt p = some t) (ht : t.Sound) (id : CCBID) :
    ∃ t' : CCBTarget, s.targetRemoveRequest p id = .ok (s.setTarget p (some t')) ∧ t'.Sound ∧
      t'.ccbid = t.ccbid ∧ t'.socketIsRegistered = t.socketIsRegistered ∧
      ∀ k, t'.listed k = if k = id then none else t.listed k := by
  unfold targetRemoveRequest
  rw [target_eq h]
  simp only [bind,Except.bind]
  cases hr : t.requests with
  | none =>
    refine ⟨t,?_,ht,rfl,rfl,?_⟩
    · have hset : s.setTarget p (some t) = s := by
        rw [setTarget,← h,update_eq_self]
      rw [hset]
    · intro k
      simp [CCBTarget.listed,hr]
  | some table =>
    have hu := ht.unique table hr
    have hlook := HashTable.lookup_remove hu id
    refine ⟨_,rfl,?_,rfl,rfl,?_⟩
    · constructor
      · intro table' h'
        dsimp only at h'
        split at h'
        · cases h'
        · cases h'
          exact hu.remove id
      · intro table' h'
        dsimp only at h'
        split at h'
        · cases h'
        · cases h'
          exact ht.rejects table hr
      · intro table' h'
        dsimp only at h'
        split at h'
        · cases h'
        · next hne =>
          cases h'
          exact hne
    · intro k
      have hk := hlook k
      simp only [CCBTarget.listed,hr,Option.bind_some]
      split
      · next h0 =>
        rw [HashTable.lookup,if_pos h0] at hk
        exact hk
      · exact hk

structure Shrinks (s s' : CCBServer) : Prop where
  reconnectInfo : s'.reconnectInfo = s.reconnectInfo
  interval : s'.reconnectInfoSweepInterval = s.reconnectInfoSweepInterval
  nextSock : s'.nextSock = s.nextSock
  targetAt : ∀ p, s.targetAt p = none → s'.targetAt p = none
  requestAt : ∀ r, s.requestAt r = none → s'.requestAt r = none

structure Keeps (s s' : CCBServer) : Prop extends s.Shrinks s' where
  targets : s'.targets = s.targets
  target : ∀ p t, s.targetAt p = some t → ∃ t', s'.targetAt p = some t' ∧ t'.ccbid = t.ccbid

theorem Shrinks.trans {s'' : CCBServer} (h : s.Shrinks s') (h' : s'.Shrinks s'') :
    s.Shrinks s'' where
  reconnectInfo := h'.reconnectInfo.trans h.reconnectInfo
  interval := h'.interval.trans h.interval
  nextSock := h'.nextSock.trans h.nextSock
  targetAt p hp := h'.targetAt p (h.targetAt p hp)
  requestAt r hr := h'.requestAt r (h.requestAt r hr)

theorem Keeps.refl (s : CCBServer) : s.Keeps s where
  reconnectInfo := rfl
  interval := rfl
  nextSock := rfl
  targetAt _ h := h
  requestAt _ h := h
  targets := rfl
  target _ t h := ⟨t,h,rfl⟩

theorem Keeps.trans {s'' : CCBServer} (h : s.Keeps s') (h' : s'.Keeps s'') : s.Keeps s'' where
  toShrinks := h.toShrinks.trans h'.toShrinks
  targets := h'.targets.trans h.targets
  target p t ht := by
    obtain ⟨t',ht',he⟩ := h.target p t ht
    obtain ⟨t'',ht'',he'⟩ := h'.target p t' ht'
    exact ⟨t'',ht'',he'.trans he⟩

theorem Consistent.removeRequest (hs : s.Consistent) (hq : s.requestAt r = some q) :
    ∃ s', s.removeRequest r = .ok s' ∧ s'.Consistent ∧ s.Keeps s' ∧
      s'.requests.numElems + 1 = s.requests.numElems := by
  obtain ⟨p,t,htargets,ht,hlisted⟩ := hs.request_listed r q hq
  have hlook := hs.request_live r q hq
  have hrem := HashTable.lookup_remove hs.requests_unique q.requestId
  have hsound := hs.target_sound p t ht
  obtain ⟨t',hremove,hsound',hccbid,hregistered,hlisted'⟩ :=
    @targetRemoveRequest_eq { s.cancelSocket r with requests := s.requests.remove q.requestId } p t
      ht hsound q.requestId
  refine ⟨({ s.cancelSocket r with
      requests := s.requests.remove q.requestId }.setTarget p (some t')).setRequest r none,?_,?_,
        ?_,?_⟩
  · unfold CCBServer.removeRequest
    rw [request_eq hq]
    simp only [bind,Except.bind]
    have hne : (s.cancelSocket r).requests.lookup q.requestId ≠ none := by
      rw [cancelSocket,hlook]
      simp
    have hfind : (s.cancelSocket r).targets.lookup q.targetCcbid = some p := htargets
    rw [if_neg hne,hfind]
    simp only [cancelSocket] at hremove ⊢
    rw [hremove]
  · have hpr : p ≠ r := fun he => hs.apart p t q ht (he ▸ hq)
    constructor
    · exact hs.targets_unique
    · exact hs.targets_rejects
    · exact hs.requests_unique.remove _
    · exact hs.requests_rejects
    · exact hs.filed
    · intro ccbid p' hp'
      have := hs.target_stored ccbid p' hp'
      simp only [setTarget,setRequest,cancelSocket,update_apply]
      grind
    · exact hs.target_record
    · intro p' u hu
      have := hs.target_live p' 
      simp only [setTarget,setRequest,cancelSocket,update_apply] at hu ⊢
      grind
    · intro p' u hu
      have := hs.target_sound p' 
      simp only [setTarget,setRequest,cancelSocket,update_apply] at hu ⊢
      grind
    · intro id r' hr'
      have := hs.request_stored id r'
      simp only [setTarget,setRequest,cancelSocket,update_apply] at hr' ⊢
      grind
    · intro r' q' hq'
      have := hs.request_live r' q'
      simp only [setTarget,setRequest,cancelSocket,update_apply] at hq' ⊢
      grind
    · intro r' q' hq'
      have := hs.request_listed r' q'
      simp only [setTarget,setRequest,cancelSocket,update_apply] at hq' ⊢
      have := hs.request_live
      grind
    · intro p' u id r' hu hl
      have := hs.listed_request p'
      have := hs.target_live p'
      simp only [setTarget,setRequest,cancelSocket,update_apply] at hu ⊢
      grind
    · intro p'
      have := hs.registered_target p'
      simp only [setTarget,setRequest,cancelSocket,update_apply]
      have := hs.apart
      grind
    · intro r'
      have := hs.registered_request r'
      simp only [setTarget,setRequest,cancelSocket,update_apply]
      grind
    · intro p' u q' hu hq'
      have := hs.apart p'
      simp only [setTarget,setRequest,cancelSocket,update_apply] at hu hq'
      grind
    · intro p' hp'
      have := hs.fresh p' hp'
      simp only [setTarget,setRequest,cancelSocket,update_apply]
      grind
  · refine ⟨⟨rfl,rfl,rfl,?_,?_⟩,rfl,?_⟩
    · intro p' hp'
      simp only [setTarget,setRequest,cancelSocket,update_apply]
      grind
    · intro r' hr'
      simp only [setTarget,setRequest,cancelSocket,update_apply]
      grind
    · intro p' u hu
      simp only [setTarget,setRequest,cancelSocket,update_apply]
      grind
  · exact HashTable.numElems_remove hlook

private theorem Consistent.first_request (hs : s.Consistent) (ht : s.targetAt p = some t)
    {table : HashTable CCBID Sock} (htable : t.requests = some table) :
    ∃ e q, table.entries.head? = some e ∧ s.requestAt e.2 = some q := by
  have hsound := hs.target_sound p t ht
  have hne := hsound.nonempty table htable
  cases hentries : table.entries with
  | nil =>
    have hcount := table.counted
    rw [HashTable.entries] at hentries
    rw [hentries] at hcount
    exact absurd hcount hne
  | cons e es =>
    have hmem : e ∈ table.entries := by
      rw [hentries]
      exact List.mem_cons_self
    have hl : t.listed e.1 = some e.2 := by
      rw [CCBTarget.listed,htable]
      exact (hsound.unique table htable).lookup_of_mem hmem
    obtain ⟨q,hq,-,-⟩ := hs.listed_request p t e.1 e.2 ht hl
    exact ⟨e,q,rfl,hq⟩

theorem Consistent.hangUp {fuel : Nat} (hs : s.Consistent) (ht : s.targetAt p = some t)
    (hfuel : s.requests.numElems < fuel) :
    ∃ s', hangUp fuel s p = .ok s' ∧ s'.Consistent ∧ s.Keeps s' ∧
      ∃ t', s'.targetAt p = some t' ∧ t'.ccbid = t.ccbid ∧ t'.requests = none := by
  induction fuel generalizing s t with
  | zero => exact absurd hfuel (Nat.not_lt_zero _)
  | succ fuel ih =>
    rw [CCBServer.hangUp,target_eq ht]
    simp only [bind,Except.bind]
    cases hr : t.requests with
    | none => exact ⟨s,rfl,hs,Keeps.refl s,t,ht,rfl,hr⟩
    | some table =>
      obtain ⟨e,q,he,hq⟩ := hs.first_request ht hr
      obtain ⟨s1,hok,hs1,hkeeps,hcount⟩ := hs.removeRequest hq
      obtain ⟨t1,ht1,hccbid⟩ := hkeeps.target p t ht
      obtain ⟨s',hok',hs',hkeeps',t',ht',hccbid',hnone⟩ := ih hs1 ht1 (by omega)
      refine ⟨s',?_,hs',hkeeps.trans hkeeps',t',ht',hccbid'.trans hccbid,hnone⟩
      dsimp only
      rw [he]
      dsimp only
      rw [hok]
      exact hok'

private theorem Consistent.deleteTarget (hs : s.Consistent) (ht : s.targetAt p = some t)
    (hr : t.requests = none) (hsock : s'.sockTable = update s.sockTable p none)
    (htargets : s'.targets = s.targets.remove t.ccbid) (hrequests : s'.requests = s.requests)
    (hinfo : s'.reconnectInfo = s.reconnectInfo) (hnext : s'.nextSock = s.nextSock)
    (htat : s'.targetAt = update s.targetAt p none) (hrat : s'.requestAt = s.requestAt) :
    s'.Consistent := by
  have hrem := HashTable.lookup_remove hs.targets_unique t.ccbid
  have hlive := hs.target_live p t ht
  have hnone : ∀ id, t.listed id = none := fun id => by simp [CCBTarget.listed,hr]
  constructor
  · rw [htargets]
    exact hs.targets_unique.remove _
  · rw [htargets]
    exact hs.targets_rejects
  · rw [hrequests]
    exact hs.requests_unique
  · rw [hrequests]
    exact hs.requests_rejects
  · rw [hinfo]
    exact hs.filed
  · intro ccbid p' hp'
    have := hs.target_stored ccbid p'
    rw [htargets] at hp'
    simp only [htat,update_apply]
    grind
  · intro ccbid p' hp'
    have := hs.target_record ccbid p'
    rw [htargets] at hp'
    rw [hinfo]
    grind
  · intro p' u hu
    have := hs.target_live p' u
    simp only [htat,update_apply] at hu
    rw [htargets]
    grind
  · intro p' u hu
    have := hs.target_sound p' u
    simp only [htat,update_apply] at hu
    grind
  · rw [hrequests,hrat]
    exact hs.request_stored
  · rw [hrequests,hrat]
    exact hs.request_live
  · intro r q hq
    rw [hrat] at hq
    have := hs.request_listed r q hq
    simp only [htat,htargets,update_apply]
    grind
  · intro p' u id r hu hl
    have := hs.listed_request p' u id r
    simp only [htat,update_apply] at hu
    rw [hrat]
    grind
  · intro p'
    have := hs.registered_target p'
    simp only [htat,hsock,update_apply]
    grind
  · intro r
    have := hs.registered_request r
    have := hs.apart r t
    simp only [hsock,hrat,update_apply]
    grind
  · intro p' u q hu hq
    have := hs.apart p' u q
    simp only [htat,update_apply] at hu
    rw [hrat] at hq
    grind
  · intro p' hp'
    rw [hnext] at hp'
    have := hs.fresh p' hp'
    simp only [htat,hrat,update_apply]
    grind

theorem Consistent.sockTable_eq_none (hs : s.Consistent)
    (ht : ∀ t, s.targetAt p = some t → t.socketIsRegistered = false) (hq : s.requestAt p = none) :
    s.sockTable p = none := by
  cases hsock : s.sockTable p with
  | none => rfl
  | some handler =>
    cases handler with
    | handleRequestResultsMsg =>
      obtain ⟨t,htp,hreg⟩ := (hs.registered_target p).mp hsock
      rw [ht t htp] at hreg
      cases hreg
    | handleRequestDisconnect =>
      obtain ⟨q,hqp⟩ := (hs.registered_request p).mp hsock
      rw [hq] at hqp
      cases hqp

theorem Consistent.requestAt_eq_none (hs : s.Consistent) (ht : s.targetAt p = some t) :
    s.requestAt p = none := by
  cases hq : s.requestAt p with
  | none => rfl
  | some q => exact (hs.apart p t q ht hq).elim

theorem Consistent.removeTarget (hs : s.Consistent) (ht : s.targetAt p = some t) :
    ∃ s', s.removeTarget p = .ok s' ∧ s'.Consistent ∧ s.Shrinks s' ∧
      s'.targets = s.targets.remove t.ccbid := by
  obtain ⟨s1,hok,hs1,hkeeps,t1,ht1,hccbid,hnone⟩ := hs.hangUp ht (Nat.lt_succ_self _)
  have hlive := hs1.target_live p t1 ht1
  have hne : s1.targets.lookup t1.ccbid ≠ none := by
    rw [hlive]
    simp
  -- a socket that is not registered has no entry to cancel
  have hcancel : (if t1.socketIsRegistered then update s1.sockTable p none else s1.sockTable) =
      update s1.sockTable p none := by
    split
    · rfl
    · next hreg =>
      have hp : s1.sockTable p = none := by
        apply hs1.sockTable_eq_none
        · intro t' ht'
          rw [ht1] at ht'
          cases ht'
          exact Bool.eq_false_iff.mpr hreg
        · exact hs1.requestAt_eq_none ht1
      rw [← hp,update_eq_self]
  refine ⟨{ s1 with
    targets := s1.targets.remove t1.ccbid
    sockTable := update s1.sockTable p none
    targetAt := update s1.targetAt p none },?_,?_,hkeeps.toShrinks.trans ?_,?_⟩
  · rw [CCBServer.removeTarget,hok]
    simp only [bind,Except.bind]
    rw [target_eq ht1]
    dsimp only
    rw [if_neg hne,← hcancel]
    cases t1.socketIsRegistered <;> rfl
  · exact hs1.deleteTarget ht1 hnone rfl rfl rfl rfl rfl rfl rfl
  · refine ⟨rfl,rfl,rfl,?_,fun _ h => h⟩
    intro p' hp'
    simp only [update_apply,hp']
    split <;> rfl
  · rw [hccbid]
    dsimp only
    rw [hkeeps.targets]

theorem Consistent.withReconnectInfo (hs : s.Consistent) {table : ReconnectTable}
    (hfiled : table.Filed) (hrecord : ∀ ccbid p, s.targets.lookup ccbid = some p →
      table.lookup ccbid ≠ none)
    (h : s' = { s with
      reconnectInfo := table
      lastReconnectInfoSweep := s'.lastReconnectInfoSweep
      nextCcbid := s'.nextCcbid
      nextRequestId := s'.nextRequestId }) : s'.Consistent := by
  rw [h]
  exact { hs with
    filed := hfiled
    target_record := hrecord }

theorem Consistent.withNextSock (hs : s.Consistent) :
    ({ s with nextSock := s.nextSock + 1 } : CCBServer).Consistent :=
  { hs with fresh := fun p hp => hs.fresh p (Nat.le_of_succ_le hp) }

theorem Consistent.insertTarget (hs : s.Consistent) {ccbid : CCBID}
    (hfree : s.targets.lookup ccbid = none) (hrecord : s.reconnectInfo.lookup ccbid ≠ none)
    (hp : p < s.nextSock) (htp : s.targetAt p = none) (hrp : s.requestAt p = none) :
    ({ s with targets := s.targets.addItem ccbid p }.setTarget p
      (some { ccbid := ccbid })).Consistent := by
  have hadd := HashTable.lookup_addItem hs.targets_unique hfree p
  have hnone : ∀ id, CCBTarget.listed { ccbid := ccbid } id = none := fun id => rfl
  constructor
  · exact hs.targets_unique.addItem hfree p
  · simp only [setTarget,HashTable.duplicateKeyBehavior_addItem]
    exact hs.targets_rejects
  · exact hs.requests_unique
  · exact hs.requests_rejects
  · exact hs.filed
  · intro ccbid' p' hp'
    simp only [setTarget,update_apply] at hp' ⊢
    rw [hadd] at hp'
    split at hp'
    · next he =>
      cases hp'
      exact ⟨_,if_pos rfl,he.symm⟩
    · have := hs.target_stored ccbid' p' hp'
      grind
  · intro ccbid' p' hp'
    have := hs.target_record ccbid' p'
    simp only [setTarget] at hp' ⊢
    grind
  · intro p' u hu
    have := hs.target_live p' u
    simp only [setTarget,update_apply] at hu ⊢
    grind
  · intro p' u hu
    simp only [setTarget,update_apply] at hu
    split at hu
    · cases hu
      refine ⟨?_,?_,?_⟩ <;> rintro _ ⟨⟩
    · exact hs.target_sound p' u hu
  · exact hs.request_stored
  · exact hs.request_live
  · intro r q hq
    have := hs.request_listed r q hq
    simp only [setTarget,update_apply]
    grind
  · intro p' u id r hu hl
    have := hs.listed_request p' u id r
    simp only [setTarget,update_apply] at hu ⊢
    grind
  · intro p'
    have := hs.registered_target p'
    simp only [setTarget,update_apply]
    grind
  · exact hs.registered_request
  · intro p' u q hu hq
    have := hs.apart p' u q
    simp only [setTarget,update_apply] at hu hq
    grind
  · intro p' hp'
    have := hs.fresh p' hp'
    simp only [setTarget,update_apply] at hp' ⊢
    grind

private theorem Consistent.tryRequest_eq (hs : s.Consistent) (r : Sock) (id : CCBID) :
    s.tryRequest r id =
      if s.requests.lookup id = none then .placed (s.requests.addItem id r) else .taken := by
  rw [tryRequest]
  cases hl : s.requests.lookup id with
  | none =>
    rw [HashTable.insert_absent hl]
    simp
  | some r' =>
    rw [HashTable.insert_present hl hs.requests_rejects]
    simp

theorem Consistent.tryTarget_eq (hs : s.Consistent) (p : Sock) (ccbid : CCBID) :
    s.tryTarget p ccbid =
      if s.reconnectInfo.lookup ccbid = none then .placed (s.targets.addItem ccbid p)
        else .taken := by
  rw [tryTarget]
  cases hi : s.reconnectInfo.lookup ccbid with
  | some info => simp
  | none =>
    have hl : s.targets.lookup ccbid = none := by
      cases hl : s.targets.lookup ccbid with
      | none => rfl
      | some p' => exact absurd hi (hs.target_record ccbid p' hl)
    rw [HashTable.insert_absent hl]
    simp

theorem CCBTarget.Sound.insert (ht : t.Sound) {id : CCBID} (hid : t.listed id = none) (r : Sock) :
    ∃ table, HashTable.insert (t.requests.getD (.initializeWith ccbidHash .rejectDuplicateKeys))
    id r =
        (table,true) ∧ CCBTarget.Sound { t with requests := some table } ∧
      ∀ k, table.lookup k = if k = id then some r else t.listed k := by
  have key : ∀ table : HashTable CCBID Sock, table.Unique →
      table.duplicateKeyBehavior = .rejectDuplicateKeys → (∀ k, table.lookup k = t.listed k) →
      ∃ table', table.insert id r = (table',true) ∧
        CCBTarget.Sound { t with requests := some table' } ∧
        ∀ k, table'.lookup k = if k = id then some r else t.listed k := by
    intro table hu hrejects hlisted
    have habsent : table.lookup id = none := by rw [hlisted,hid]
    have hlook := HashTable.lookup_addItem hu habsent r
    refine ⟨_,HashTable.insert_absent habsent r,⟨?_,?_,?_⟩,?_⟩
    · rintro _ ⟨⟩
      exact hu.addItem habsent r
    · rintro _ ⟨⟩
      rw [HashTable.duplicateKeyBehavior_addItem,hrejects]
    · rintro _ ⟨⟩ h0
      have hid' := hlook id
      rw [HashTable.lookup,if_pos h0,if_pos rfl] at hid'
      cases hid'
    · intro k
      rw [hlook,hlisted]
  cases hr : t.requests with
  | none =>
    apply key _ (HashTable.unique_initializeWith _ _) rfl
    intro k
    simp [CCBTarget.listed,hr,HashTable.lookup_eq_head?]
  | some table =>
    apply key table (ht.unique table hr) (ht.rejects table hr)
    intro k
    simp [CCBTarget.listed,hr]

theorem Consistent.incPendingRequestResults (hs : s.Consistent) (ht : s.targetAt p = some t)
    (s1 : CCBServer) (hat : s1.targetAt = s.targetAt) (hsock : s1.sockTable = s.sockTable) :
    s1.incPendingRequestResults p = .ok { s1 with
      sockTable := update s1.sockTable p (some .handleRequestResultsMsg)
      targetAt := update s1.targetAt p (some { t with
        pendingRequestResults := t.pendingRequestResults + 1
        socketIsRegistered := true }) } := by
  have ht1 : s1.targetAt p = some t := by rw [hat,ht]
  rw [CCBServer.incPendingRequestResults,target_eq ht1]
  simp only [bind,Except.bind]
  cases hreg : t.socketIsRegistered with
  | true =>
    have hp : s1.sockTable p = some .handleRequestResultsMsg := by
      rw [hsock]
      exact (hs.registered_target p).mpr ⟨t,ht,hreg⟩
    rw [if_pos rfl,← hp,update_eq_self]
    rfl
  | false =>
    have hp : s1.sockTable p = none := by
      rw [hsock]
      apply hs.sockTable_eq_none
      · intro t' ht'
        rw [ht] at ht'
        cases ht'
        exact hreg
      · exact hs.requestAt_eq_none ht
    simp [registerSocket,hp,setTarget]

private theorem Consistent.insertRequest (hs : s.Consistent) {ccbid id : CCBID} {t' : CCBTarget}
    (hp : s.targets.lookup ccbid = some p) (ht : s.targetAt p = some t)
    (hfree : s.requests.lookup id = none) (hr : r < s.nextSock) (htr : s.targetAt r = none)
    (hrr : s.requestAt r = none) (hq : q.requestId = id) (hqt : q.targetCcbid = ccbid)
    (hsound : t'.Sound) (hccbid : t'.ccbid = t.ccbid) (hreg : t'.socketIsRegistered = true)
    (hlisted : ∀ k, t'.listed k = if k = id then some r else t.listed k) (h : s' = { s with
      requests := s.requests.addItem id r
      nextRequestId := s'.nextRequestId
      requestAt := update s.requestAt r (some q)
      targetAt := update s.targetAt p (some t')
      sockTable := update (update s.sockTable p (some .handleRequestResultsMsg)) r
        (some .handleRequestDisconnect) }) : s'.Consistent := by
  have hadd := HashTable.lookup_addItem hs.requests_unique hfree r
  have hne : p ≠ r := by
    rintro rfl
    rw [ht] at htr
    cases htr
  have hccbid' : t.ccbid = ccbid := by
    obtain ⟨u,hu,he⟩ := hs.target_stored ccbid p hp
    rw [ht] at hu
    cases hu
    exact he
  rw [h]
  constructor
  · exact hs.targets_unique
  · exact hs.targets_rejects
  · exact hs.requests_unique.addItem hfree r
  · simp only [HashTable.duplicateKeyBehavior_addItem]
    exact hs.requests_rejects
  · exact hs.filed
  · intro ccbid' p' hp'
    have := hs.target_stored ccbid' p' hp'
    simp only [update_apply]
    grind
  · exact hs.target_record
  · intro p' u hu
    have := hs.target_live p'
    simp only [update_apply] at hu ⊢
    grind
  · intro p' u hu
    have := hs.target_sound p'
    simp only [update_apply] at hu
    grind
  · intro id' r' hr'
    have := hs.request_stored id' r'
    simp only [update_apply] at hr' ⊢
    grind
  · intro r' q' hq'
    have := hs.request_live r' q'
    simp only [update_apply] at hq' ⊢
    grind
  · intro r' q' hq'
    have := hs.request_listed r' q'
    have := hs.request_live r' q'
    simp only [update_apply] at hq' ⊢
    grind
  · intro p' u id' r' hu hl
    have := hs.listed_request p' 
    simp only [update_apply] at hu ⊢
    grind
  · intro p'
    have := hs.registered_target p'
    simp only [update_apply]
    grind
  · intro r'
    have := hs.registered_request r'
    have := hs.requestAt_eq_none ht
    simp only [update_apply]
    grind
  · intro p' u q' hu hq'
    have := hs.apart p'
    simp only [update_apply] at hu hq'
    grind
  · intro p' hp'
    have := hs.fresh p' hp'
    have := hs.fresh p
    simp only [update_apply] at hp' ⊢
    grind

theorem Consistent.addRequest (hs : s.Consistent) {ccbid : CCBID}
    (hp : s.targets.lookup ccbid = some p) (hr : r < s.nextSock) (htr : s.targetAt r = none)
    (hrr : s.requestAt r = none) (returnAddr connectId : CString) :
    (∃ s' q, s.addRequest r p ccbid returnAddr connectId = .ok s' ∧ s'.Consistent ∧
      s'.requestAt r = some q ∧ s'.reconnectInfoSweepInterval = s.reconnectInfoSweepInterval) ∨
    (s.addRequest r p ccbid returnAddr connectId = .error .looping ∧
      ∀ id, s.requests.lookup id ≠ none) := by
  obtain ⟨t,ht,-⟩ := hs.target_stored ccbid p hp
  have hnever : ∀ id, s.tryRequest r id ≠ .refused := by
    intro id
    rw [hs.tryRequest_eq]
    split <;> simp
  rcases nextId_cases hnever s.nextRequestId with ⟨requests,id,hplaced,hid⟩ | ⟨hloop,htaken⟩
  · rw [hs.tryRequest_eq] at hplaced
    split at hplaced
    · next hfree =>
      cases hplaced
      have hnone : t.listed id = none := by
        cases hl : t.listed id with
        | none => rfl
        | some r' =>
          obtain ⟨q,hq,hqid,-⟩ := hs.listed_request p t id r' ht hl
          have hlive := hs.request_live r' q hq
          rw [hqid,hfree] at hlive
          cases hlive
      obtain ⟨table,hinsert,hsound,hlook⟩ := CCBTarget.Sound.insert (hs.target_sound p t ht) hnone r
      have hpr : p ≠ r := by
        rintro rfl
        rw [ht] at htr
        cases htr
      have hsockr : s.sockTable r = none := by
        apply hs.sockTable_eq_none
        · intro u hu
          rw [htr] at hu
          cases hu
        · exact hrr
      refine Or.inl ⟨{ s with
        requests := s.requests.addItem id r
        nextRequestId := id + 1
        requestAt := update s.requestAt r (some ⟨ccbid,id,returnAddr,connectId⟩)
        targetAt := update s.targetAt p (some { t with
          pendingRequestResults := t.pendingRequestResults + 1
          socketIsRegistered := true
          requests := some table })
        sockTable := update (update s.sockTable p (some .handleRequestResultsMsg)) r
          (some .handleRequestDisconnect) },⟨ccbid,id,returnAddr,connectId⟩,?_,?_,?_,rfl⟩
      · rw [CCBServer.addRequest,hid]
        simp only [bind,Except.bind]
        have hinc := hs.incPendingRequestResults ht (setRequest { s with
          requests := s.requests.addItem id r
          nextRequestId := id + 1 } r (some ⟨ccbid,id,returnAddr,connectId⟩)) rfl rfl
        rw [targetAddRequest,hinc]
        simp only [bind,Except.bind]
        rw [@target_eq _ p { t with
          pendingRequestResults := t.pendingRequestResults + 1
          socketIsRegistered := true } (update_self ..)]
        dsimp only
        rw [hinsert]
        simp only [registerSocket,setTarget,setRequest,update_of_ne (Ne.symm hpr),hsockr,
          update_idem]
      · have hsound' : CCBTarget.Sound { t with
            pendingRequestResults := t.pendingRequestResults + 1
            socketIsRegistered := true
            requests := some table } := ⟨hsound.unique,hsound.rejects,hsound.nonempty⟩
        exact hs.insertRequest hp ht hfree hr htr hrr rfl rfl hsound' rfl rfl hlook rfl
      · exact update_self ..
    · cases hplaced
  · refine Or.inr ⟨?_,?_⟩
    · rw [CCBServer.addRequest,hloop]
      rfl
    · intro id h
      have hid := htaken id
      rw [hs.tryRequest_eq,if_pos h] at hid
      cases hid

end CCBServer

end Condor.Ccb
