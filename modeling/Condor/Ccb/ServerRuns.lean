import Condor.Ccb.Consistency

/-!
# Runs of the broker

Every handler keeps the tables in agreement, whatever the peers send and in whatever order.
-/

namespace Condor.Ccb

open List Function

namespace CCBServer

variable {s s' : CCBServer} {p : Sock} {t : CCBTarget}

structure Serves (s s' : CCBServer) : Prop where
  consistent : s'.Consistent
  interval : s'.reconnectInfoSweepInterval = s.reconnectInfoSweepInterval

theorem Serves.trans {s'' : CCBServer} (h : s.Serves s') (h' : s'.Serves s'') : s.Serves s'' :=
  ⟨h'.consistent,h'.interval.trans h.interval⟩

theorem Consistent.decPendingRequestResults (hs : s.Consistent) (ht : s.targetAt p = some t) :
    ∃ s' t', s.decPendingRequestResults p = .ok s' ∧ s.Serves s' ∧ s'.targetAt p = some t' := by
  have hapart := hs.requestAt_eq_none ht
  -- neither the tables nor the requests of the target change, only whether its socket is registered
  have key : ∀ (s' : CCBServer) (t' : CCBTarget), t'.ccbid = t.ccbid → t'.requests = t.requests →
      s' = { s with
        targetAt := update s.targetAt p (some t')
        sockTable := update s.sockTable p
          (if t'.socketIsRegistered then some .handleRequestResultsMsg else none) } →
      s'.Consistent := by
    intro s' t' hccbid hrequests h
    have hlisted : ∀ id, t'.listed id = t.listed id := by
      intro id
      rw [CCBTarget.listed,CCBTarget.listed,hrequests]
    rw [h]
    constructor
    · exact hs.targets_unique
    · exact hs.targets_rejects
    · exact hs.requests_unique
    · exact hs.requests_rejects
    · exact hs.filed
    · intro ccbid p' hp'
      have := hs.target_stored ccbid p' hp'
      simp only [update_apply]
      grind
    · exact hs.target_record
    · intro p' u hu
      have := hs.target_live p'
      simp only [update_apply] at hu
      grind
    · intro p' u hu
      have hsound := hs.target_sound p t ht
      simp only [update_apply] at hu
      split at hu
      · cases hu
        exact ⟨fun table h => hsound.unique table (hrequests ▸ h),
          fun table h => hsound.rejects table (hrequests ▸ h),
          fun table h => hsound.nonempty table (hrequests ▸ h)⟩
      · exact hs.target_sound p' u hu
    · exact hs.request_stored
    · exact hs.request_live
    · intro r q hq
      have := hs.request_listed r q hq
      simp only [update_apply]
      grind
    · intro p' u id r hu hl
      have := hs.listed_request p'
      simp only [update_apply] at hu
      grind
    · intro p'
      have := hs.registered_target p'
      simp only [update_apply]
      grind
    · intro r
      have := hs.registered_request r
      simp only [update_apply]
      grind
    · intro p' u q hu hq
      have := hs.apart p' u q
      simp only [update_apply] at hu
      grind
    · intro p' hp'
      have := hs.fresh p' hp'
      simp only [update_apply]
      grind
  rw [CCBServer.decPendingRequestResults,target_eq ht]
  simp only [bind,Except.bind]
  split
  · exact ⟨_,_,rfl,⟨key _ { t with
      pendingRequestResults := t.pendingRequestResults - 1
      socketIsRegistered := false } rfl rfl rfl,rfl⟩,update_self ..⟩
  · refine ⟨_,_,rfl,⟨key _ { t with pendingRequestResults := t.pendingRequestResults - 1 } rfl
      rfl ?_,
      rfl⟩,update_self ..⟩
    have hsock : s.sockTable p =
        if t.socketIsRegistered then some .handleRequestResultsMsg else none := by
      split
      · next hreg => exact (hs.registered_target p).mpr ⟨t,ht,hreg⟩
      · next hreg =>
        apply hs.sockTable_eq_none _ hapart
        intro t' ht'
        rw [ht] at ht'
        cases ht'
        exact Bool.eq_false_iff.mpr hreg
    dsimp only
    rw [← hsock,update_eq_self]
    rfl

theorem Consistent.handleRequestResultsMsg (hs : s.Consistent) (ht : s.targetAt p = some t)
    (msg : TargetMsg) : ∃ s', s.handleRequestResultsMsg p msg = .ok s' ∧ s.Serves s' := by
  have remove : ∀ (s : CCBServer) (t : CCBTarget), s.Consistent → s.targetAt p = some t →
      ∃ s', s.removeTarget p = .ok s' ∧ s.Serves s' := by
    intro s t hs ht
    obtain ⟨s',hok,hs',hshrinks,-⟩ := hs.removeTarget ht
    exact ⟨s',hok,hs',hshrinks.interval⟩
  cases msg with
  | disconnect => exact remove s t hs ht
  | alive sent =>
    simp only [CCBServer.handleRequestResultsMsg,bind,Except.bind,target_eq ht]
    cases sent with
    | true => exact ⟨s,rfl,hs,rfl⟩
    | false => exact remove s t hs ht
  | result requestId connectId clientReady =>
    obtain ⟨s1,t1,hok,hserves,ht1⟩ := hs.decPendingRequestResults ht
    have hs1 := hserves.consistent
    simp only [CCBServer.handleRequestResultsMsg,bind,Except.bind,hok]
    cases ccbidFromString requestId with
    | none =>
      obtain ⟨s',hok',hserves'⟩ := remove s1 t1 hs1 ht1
      exact ⟨s',hok',hserves.trans hserves'⟩
    | some reqid =>
      dsimp only
      cases hl : s1.requests.lookup reqid with
      | none => exact ⟨s1,rfl,hserves⟩
      | some r =>
        obtain ⟨q,hq,-⟩ := hs1.request_stored reqid r hl
        obtain ⟨s2,hremove,hs2,hkeeps,-⟩ := hs1.removeRequest hq
        have hserves2 := hserves.trans ⟨hs2,hkeeps.interval⟩
        dsimp only
        rw [request_eq hq]
        dsimp only
        split
        · exact ⟨s2,hremove,hserves2⟩
        · split
          · obtain ⟨s',hok',hserves'⟩ := remove s1 t1 hs1 ht1
            exact ⟨s',hok',hserves.trans hserves'⟩
          · exact ⟨s2,hremove,hserves2⟩

theorem Consistent.addTarget (hs : s.Consistent) (hp : p < s.nextSock) (htp : s.targetAt p = none)
    (hrp : s.requestAt p = none) (cookie : UInt32) (peerIp : CString) (now : Int) :
    (∃ s' ccbid, s.addTarget p cookie peerIp now = .ok (s',ccbid) ∧ s.Serves s' ∧
      s'.targetAt p = some { ccbid := ccbid }) ∨
    (s.addTarget p cookie peerIp now = .error .looping ∧
    ∀ id, s.reconnectInfo.lookup id ≠ none) := by
  have hnever : ∀ id, s.tryTarget p id ≠ .refused := by
    intro id
    rw [hs.tryTarget_eq]
    split <;> simp
  rcases nextId_cases hnever s.nextCcbid with ⟨targets,id,hplaced,hid⟩ | ⟨hloop,htaken⟩
  · rw [hs.tryTarget_eq] at hplaced
    split at hplaced
    · next hnone =>
      cases hplaced
      obtain ⟨table,hadd,hfiled,hlook⟩ :=
        hs.filed.addReconnectInfo (.new id cookie.toUInt64 peerIp now)
      have hfree : s.targets.lookup id = none := by
        cases hl : s.targets.lookup id with
        | none => rfl
        | some p' => exact absurd hnone (hs.target_record id p' hl)
      have hrecord : ∀ ccbid p', s.targets.lookup ccbid = some p' → table.lookup ccbid ≠ none := by
        intro ccbid p' hp'
        rw [hlook]
        split
        · simp
        · exact hs.target_record ccbid p' hp'
      have hs1 : Consistent { s with reconnectInfo := table, nextCcbid := id + 1 } :=
        hs.withReconnectInfo hfiled hrecord rfl
      have hid' : table.lookup id ≠ none := by
        rw [hlook]
        simp [CCBReconnectInfo.new]
      refine .inl ⟨_,id,?_,⟨hs1.insertTarget hfree hid' hp htp hrp,rfl⟩,update_self ..⟩
      rw [CCBServer.addTarget,hid]
      simp only [bind,Except.bind]
      rw [hadd]
    · cases hplaced
  · refine .inr ⟨?_,?_⟩
    · rw [CCBServer.addTarget,hloop]
      rfl
    · intro id h
      have hid := htaken id
      rw [hs.tryTarget_eq,if_pos h] at hid
      cases hid

theorem Consistent.reconnectTarget (hs : s.Consistent) (hp : p < s.nextSock)
    (htp : s.targetAt p = none) (hrp : s.requestAt p = none) (ccbid cookie : CCBID)
    (peerIp : CString) (now : Int) :
    s.reconnectTarget p ccbid cookie peerIp now = .ok none ∨
    ∃ s', s.reconnectTarget p ccbid cookie peerIp now = .ok (some s') ∧ s.Serves s' ∧
      s'.targetAt p = some { ccbid := ccbid } := by
  rw [CCBServer.reconnectTarget]
  cases hi : s.reconnectInfo.lookup ccbid with
  | none => exact .inl rfl
  | some info =>
    dsimp only
    split
    · exact .inl rfl
    · split
      · exact .inl rfl
      · refine .inr ?_
        have hlook := HashTable.lookup_adjust s.reconnectInfo ccbid (ReconnectTable.alive now)
        have hkeep : ∀ k, s.reconnectInfo.lookup k ≠ none →
            HashTable.lookup (s.reconnectInfo.adjust ccbid (ReconnectTable.alive now)) k ≠
              none := by
          intro k hk
          rw [hlook]
          split
          · simpa using hk
          · exact hk
        have hs1 : Consistent { s with
            reconnectInfo := s.reconnectInfo.adjust ccbid (ReconnectTable.alive now) } :=
          hs.withReconnectInfo (hs.filed.adjust_alive ccbid)
            (fun k p' hp' => hkeep k (hs.target_record k p' hp')) rfl
        have hrecord := hkeep ccbid (by rw [hi]; simp)
        simp only [bind,Except.bind]
        cases hl : s.targets.lookup ccbid with
        | none =>
          dsimp only
          rw [HashTable.insert_absent hl]
          exact ⟨_,rfl,⟨hs1.insertTarget hl hrecord hp htp hrp,rfl⟩,update_self ..⟩
        | some existing =>
          obtain ⟨t,ht,hccbid⟩ := hs1.target_stored ccbid existing hl
          obtain ⟨s2,hok,hs2,hshrinks,htargets⟩ := hs1.removeTarget ht
          have hfree : s2.targets.lookup ccbid = none := by
            rw [htargets,hccbid,HashTable.lookup_remove hs1.targets_unique,if_pos rfl]
          dsimp only
          rw [hok]
          dsimp only
          rw [HashTable.insert_absent hfree]
          refine ⟨_,rfl,⟨hs2.insertTarget hfree ?_ ?_ (hshrinks.targetAt p htp)
            (hshrinks.requestAt p hrp),hshrinks.interval⟩,update_self ..⟩
          · rw [hshrinks.reconnectInfo]
            exact hrecord
          · rw [hshrinks.nextSock]
            exact hp

def Exhausted (s : CCBServer) : Prop :=
  (∀ id, s.reconnectInfo.lookup id ≠ none) ∨ ∀ id, s.requests.lookup id ≠ none

/-- A handler returns with the tables in agreement, or looks for a number when there is none. -/
def Answers (s : CCBServer) (result : Except Fault CCBServer) : Prop :=
  (∃ s', result = .ok s' ∧ s.Serves s') ∨ (result = .error .looping ∧ s.Exhausted)

theorem Consistent.handleRegistration (hs : s.Consistent) (msg : Msg) (peerIp : CString)
    (cookie : UInt32) (sent : Bool) (now : Int) :
    s.Answers (s.handleRegistration msg peerIp cookie sent now) := by
  have hs1 := hs.withNextSock
  obtain ⟨htp,hrp⟩ := hs.fresh s.nextSock (Nat.le_refl _)
  have hlt : s.nextSock < s.nextSock + 1 := Nat.lt_succ_self _
  -- the registration is answered when the target is in the table
  have reply : ∀ s2 ccbid, s.Serves s2 → s2.targetAt s.nextSock = some { ccbid := ccbid } →
      s.Answers (do
        let target ← s2.target s.nextSock
        if s2.reconnectInfo.lookup target.ccbid = none then .error .except
        else if sent then .ok s2 else s2.removeTarget s.nextSock) := by
    intro s2 ccbid hserves ht2
    have hlive := hserves.consistent.target_live _ _ ht2
    have hrecord := hserves.consistent.target_record _ _ hlive
    rw [target_eq ht2]
    simp only [bind,Except.bind]
    rw [if_neg hrecord]
    cases sent with
    | true => exact .inl ⟨s2,rfl,hserves⟩
    | false =>
      obtain ⟨s',hok,hs',hshrinks,-⟩ := hserves.consistent.removeTarget ht2
      exact .inl ⟨s',hok,hserves.trans ⟨hs',hshrinks.interval⟩⟩
  have add : s.Answers (do
      let s2 ← (CCBServer.addTarget { s with nextSock := s.nextSock + 1 } s.nextSock cookie peerIp
        now).map Prod.fst
      let target ← s2.target s.nextSock
      if s2.reconnectInfo.lookup target.ccbid = none then .error .except
      else if sent then .ok s2 else s2.removeTarget s.nextSock) := by
    rcases hs1.addTarget hlt htp hrp cookie peerIp now
      with ⟨s2,ccbid,hok,hserves,ht2⟩ | ⟨hloop,hall⟩
    · rw [hok]
      exact reply s2 ccbid ⟨hserves.consistent,hserves.interval⟩ ht2
    · rw [hloop]
      exact .inr ⟨rfl,.inl hall⟩
  rw [CCBServer.handleRegistration]
  cases reconnecting msg with
  | none => exact add
  | some old =>
    rcases hs1.reconnectTarget hlt htp hrp old.1 old.2 peerIp now with hok | ⟨s2,hok,hserves,ht2⟩
    · simp only [hok,bind,Except.bind]
      exact add
    · simp only [hok,bind,Except.bind]
      exact reply s2 old.1 ⟨hserves.consistent,hserves.interval⟩ ht2

theorem Consistent.handleRequest (hs : s.Consistent) (msg : Msg) (forwarded : Bool) :
    s.Answers (s.handleRequest msg forwarded) := by
  have same : s.Answers (.ok s) := .inl ⟨s,rfl,hs,rfl⟩
  rw [CCBServer.handleRequest]
  split
  · next ccbidStr returnAddr connectId _ _ _ =>
    cases ccbidFromString ccbidStr with
    | none => exact same
    | some ccbid =>
      dsimp only
      cases hl : s.targets.lookup ccbid with
      | none => exact same
      | some p =>
        obtain ⟨htr,hrr⟩ := hs.fresh s.nextSock (Nat.le_refl _)
        simp only [bind,Except.bind]
        rcases hs.withNextSock.addRequest hl (Nat.lt_succ_self _) htr hrr returnAddr connectId with
          ⟨s1,q,hok,hs1,hq,hinterval⟩ | ⟨hloop,hall⟩
        · rw [hok]
          cases forwarded with
          | true => exact .inl ⟨s1,rfl,hs1,hinterval⟩
          | false =>
            obtain ⟨s',hremove,hs',hkeeps,-⟩ := hs1.removeRequest hq
            exact .inl ⟨s',hremove,hs',hkeeps.interval.trans hinterval⟩
        · rw [hloop]
          exact .inr ⟨rfl,.inr hall⟩
  · exact same

theorem Consistent.connected (hs : s.Consistent) :
    ∃ connected, (s.targets.entries.mapM fun e => (s.target e.2).map CCBTarget.ccbid) =
    .ok connected ∧
      ∀ ccbid, ccbid ∈ connected ↔ s.targets.lookup ccbid ≠ none := by
  have key : ∀ es : List (CCBID × Sock), (∀ e ∈ es, e ∈ s.targets.entries) →
      (es.mapM fun e => (s.target e.2).map CCBTarget.ccbid) = .ok (es.map Prod.fst) := by
    intro es hes
    induction es with
    | nil => rfl
    | cons e es ih =>
      have he := hs.targets_unique.lookup_of_mem (hes e mem_cons_self)
      obtain ⟨t,ht,hccbid⟩ := hs.target_stored _ _ he
      rw [mapM_cons,target_eq ht,ih fun e' he' => hes e' (mem_cons_of_mem _ he')]
      simp [bind,Except.bind,Except.map,pure,Except.pure,hccbid]
  refine ⟨_,key s.targets.entries fun _ h => h,?_⟩
  intro ccbid
  rw [mem_map]
  constructor
  · rintro ⟨e,he,rfl⟩
    rw [hs.targets_unique.lookup_of_mem he]
    simp
  · intro h
    obtain ⟨p,hp⟩ := Option.ne_none_iff_exists'.mp h
    exact ⟨(ccbid,p),(hs.targets_unique.mem_entries_iff _).mpr hp,rfl⟩

private theorem Consistent.sweepReconnectInfo_due (hs : s.Consistent) (now : Int)
    (hdue : ¬s.lastReconnectInfoSweep + s.reconnectInfoSweepInterval > now) :
    ∃ table connected, s.sweepReconnectInfo now =
        .ok { s with lastReconnectInfoSweep := now, reconnectInfo := table } ∧ table.Filed ∧
      (∀ ccbid, ccbid ∈ connected ↔ s.targets.lookup ccbid ≠ none) ∧
      ∀ ccbid, table.lookup ccbid = (s.reconnectInfo.lookup ccbid).bind
        (ReconnectTable.afterSweep now s.reconnectInfoSweepInterval connected ccbid) := by
  obtain ⟨connected,hmap,hmem⟩ := hs.connected
  have hrecord : ∀ ccbid ∈ connected, s.reconnectInfo.lookup ccbid ≠ none := by
    intro ccbid hc
    obtain ⟨p,hp⟩ := Option.ne_none_iff_exists'.mp ((hmem ccbid).mp hc)
    exact hs.target_record ccbid p hp
  obtain ⟨table,hsweep,hfiled,hlook⟩ :=
    hs.filed.sweep now s.reconnectInfoSweepInterval hrecord
  refine ⟨table,connected,?_,hfiled,hmem,hlook⟩
  rw [CCBServer.sweepReconnectInfo,if_neg hdue,hmap]
  simp only [bind,Except.bind]
  rw [hsweep]

theorem Consistent.sweepReconnectInfo (hs : s.Consistent)
    (h0 : 0 ≤ toInt (2 * s.reconnectInfoSweepInterval)) (now : Int) :
    ∃ s', s.sweepReconnectInfo now = .ok s' ∧ s.Serves s' := by
  by_cases hdue : s.lastReconnectInfoSweep + s.reconnectInfoSweepInterval > now
  · rw [CCBServer.sweepReconnectInfo,if_pos hdue]
    exact ⟨s,rfl,hs,rfl⟩
  · obtain ⟨table,connected,hok,hfiled,hmem,hlook⟩ := hs.sweepReconnectInfo_due now hdue
    refine ⟨_,hok,hs.withReconnectInfo hfiled ?_ rfl,rfl⟩
    intro ccbid p hp
    have hc : ccbid ∈ connected := by
      rw [hmem,hp]
      simp
    obtain ⟨info,hinfo⟩ := Option.ne_none_iff_exists'.mp (hs.target_record ccbid p hp)
    rw [hlook,hinfo,Option.bind_some,ReconnectTable.afterSweep_connected hc,if_pos h0]
    simp

theorem Consistent.pollTargets (hs : s.Consistent) (msgs : Sock → Option TargetMsg)
    (es : List (CCBID × Sock)) : ∃ s', pollTargets msgs es s = .ok s' ∧ s.Serves s' := by
  induction es generalizing s with
  | nil => exact ⟨s,rfl,hs,rfl⟩
  | cons e es ih =>
    rw [CCBServer.pollTargets]
    split
    · next p msg hl _ =>
      simp only [bind,Except.bind]
      split
      · next he =>
        obtain ⟨t,ht,-⟩ := hs.target_stored e.1 p hl
        obtain ⟨s1,hok,hserves⟩ := hs.handleRequestResultsMsg ht msg
        obtain ⟨s',hok',hserves'⟩ := ih hserves.consistent
        rw [hok]
        exact ⟨s',hok',hserves.trans hserves'⟩
      · exact ih hs
    · exact ih hs

theorem Consistent.step (hs : s.Consistent) (h0 : 0 ≤ toInt (2 * s.reconnectInfoSweepInterval))
    (e : Event) : s.Answers (s.step e) := by
  have same : s.Answers (.ok s) := .inl ⟨s,rfl,hs,rfl⟩
  cases e with
  | registration msg peerIp cookie sent now =>
    cases msg with
    | none => exact same
    | some msg => exact hs.handleRegistration msg peerIp cookie sent now
  | request msg forwarded =>
    cases msg with
    | none => exact same
    | some msg => exact hs.handleRequest msg forwarded
  | socketReady p msg =>
    rw [CCBServer.step]
    cases hsock : s.sockTable p with
    | none => exact same
    | some handler =>
      cases handler with
      | handleRequestResultsMsg =>
        obtain ⟨t,ht,-⟩ := (hs.registered_target p).mp hsock
        exact .inl (hs.handleRequestResultsMsg ht msg)
      | handleRequestDisconnect =>
        obtain ⟨q,hq⟩ := (hs.registered_request p).mp hsock
        obtain ⟨s',hok,hs',hkeeps,-⟩ := hs.removeRequest hq
        exact .inl ⟨s',hok,hs',hkeeps.interval⟩
  | pollSockets msgs now =>
    obtain ⟨s1,hok,hserves⟩ := hs.pollTargets msgs s.targets.entries
    obtain ⟨s',hok',hserves'⟩ :=
      hserves.consistent.sweepReconnectInfo (hserves.interval ▸ h0) now
    rw [CCBServer.step,CCBServer.pollSockets,hok]
    exact .inl ⟨s',hok',hserves.trans hserves'⟩
  | sweepReconnectInfo now => exact .inl (hs.sweepReconnectInfo h0 now)

def Upheld : CCBServer → List Event → Prop
  | s, [] => s.Consistent
  | s, e :: es => s.Consistent ∧
    match s.step e with
    | .ok s' => Upheld s' es
    | .error .looping => s.Exhausted
    | .error _ => False

private theorem Consistent.upheld (hs : s.Consistent)
    (h0 : 0 ≤ toInt (2 * s.reconnectInfoSweepInterval))
    (es : List Event) : s.Upheld es := by
  induction es generalizing s with
  | nil => exact hs
  | cons e es ih =>
    refine ⟨hs,?_⟩
    rcases hs.step h0 e with ⟨s',hok,hserves⟩ | ⟨hloop,hex⟩
    · rw [hok]
      exact ih hserves.consistent (hserves.interval ▸ h0)
    · rw [hloop]
      exact hex

theorem Consistent.new {table : ReconnectTable} (h : table.Filed) (next : CCBID)
    (now interval : Int) :
    (new table next now interval).Consistent where
  targets_unique := HashTable.unique_initializeWith _ _
  targets_rejects := rfl
  requests_unique := HashTable.unique_initializeWith _ _
  requests_rejects := rfl
  filed := h
  target_stored ccbid p hp := by simp [CCBServer.new,HashTable.lookup_eq_head?] at hp
  target_record ccbid p hp := by simp [CCBServer.new,HashTable.lookup_eq_head?] at hp
  target_live p t ht := nomatch ht
  target_sound p t ht := nomatch ht
  request_stored id r hr := by simp [CCBServer.new,HashTable.lookup_eq_head?] at hr
  request_live r q hq := nomatch hq
  request_listed r q hq := nomatch hq
  listed_request p t id r ht := nomatch ht
  registered_target p := ⟨fun h => (nomatch h),fun ⟨_,h,_⟩ => (nomatch h)⟩
  registered_request r := ⟨fun h => (nomatch h),fun ⟨_,h⟩ => (nomatch h)⟩
  apart p t q ht := nomatch ht
  fresh p _ := ⟨rfl,rfl⟩

private theorem Upheld.run_ne_except {es : List Event}
    (h : s.Upheld es) : s.run es ≠ .error .except := by
  induction es generalizing s with
  | nil => exact fun hr => (nomatch hr)
  | cons e es ih =>
    have hstep := h.2
    rw [CCBServer.run]
    cases he : s.step e with
    | ok s' =>
      rw [he] at hstep
      exact ih hstep
    | error fault =>
      rw [he] at hstep
      cases fault with
      | looping => exact fun hr => (nomatch hr)
      | except | freed => exact hstep.elim

def firstRegistration : Event :=
  .registration (some { ccbid := none, claimId := none }) (cstr "10.0.0.1") 7 true 0

private theorem Consistent.sweep_negative (hs : s.Consistent)
    (h0 : ¬0 ≤ toInt (2 * s.reconnectInfoSweepInterval)) {ccbid : CCBID}
    (hp : s.targets.lookup ccbid = some p) {now : Int}
    (hdue : ¬s.lastReconnectInfoSweep + s.reconnectInfoSweepInterval > now)
    (hok : s.sweepReconnectInfo now = .ok s') : ¬s'.Consistent := by
  intro hs'
  obtain ⟨table,connected,hsweep,-,hmem,hlook⟩ := hs.sweepReconnectInfo_due now hdue
  rw [hsweep] at hok
  cases hok
  have hc : ccbid ∈ connected := by
    rw [hmem,hp]
    simp
  apply hs'.target_record ccbid p hp
  obtain ⟨info,hinfo⟩ := Option.ne_none_iff_exists'.mp (hs.target_record ccbid p hp)
  dsimp only
  rw [hlook,hinfo,Option.bind_some,ReconnectTable.afterSweep_connected hc,if_neg h0]

/-- The tables of the broker agree and no assertion fails, exactly when twice the sweep interval is
no negative `int`. -/
theorem upheld_iff (interval : Int) :
    (∀ (infos : List CCBReconnectInfo) (next : CCBID) (now : Int) (es : List Event),
      ∃ table, ReconnectTable.load infos = .ok table ∧ (new table next now interval).Upheld es) ↔
    0 ≤ toInt (2 * interval) := by
  constructor
  · intro h
    by_contra h0
    obtain ⟨table,hload,hup⟩ :=
      h [] 1 0 [firstRegistration,.sweepReconnectInfo interval.natAbs]
    cases hload
    obtain ⟨s,hreg,hp,hlast,hinterval⟩ : ∃ s,
        (new ReconnectTable.new 1 0 interval).step firstRegistration = .ok s ∧
          s.targets.lookup 1 = some 0 ∧ s.lastReconnectInfoSweep = 0 ∧
          s.reconnectInfoSweepInterval = interval := ⟨_,rfl,rfl,rfl,rfl⟩
    have hup1 := hup.2
    rw [hreg] at hup1
    have hs := hup1.1
    have hdue : ¬s.lastReconnectInfoSweep + s.reconnectInfoSweepInterval > interval.natAbs := by
      rw [hlast,hinterval]
      omega
    obtain ⟨table,-,hok,-⟩ := hs.sweepReconnectInfo_due _ hdue
    have hup2 := hup1.2
    rw [CCBServer.step,hok] at hup2
    exact hs.sweep_negative (hinterval ▸ h0) hp hdue hok hup2
  · intro h0 infos next now es
    obtain ⟨table,hload,hfiled⟩ := ReconnectTable.filed_load infos
    exact ⟨table,hload,(Consistent.new hfiled next now interval).upheld h0 es⟩

/-- With the interval -1 the second sweep runs into the assertion that a target has a record. -/
theorem upheld_fails : ∃ es, ¬(new ReconnectTable.new 1 0 (-1)).Upheld es :=
  ⟨[firstRegistration,.sweepReconnectInfo 100,.sweepReconnectInfo 200],fun h =>
    h.run_ne_except rfl⟩

end CCBServer

end Condor.Ccb
