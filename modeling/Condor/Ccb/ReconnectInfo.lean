import Condor.Utils.CString
import Condor.Utils.HashTable

/-!
# Reconnect records of the connection broker

A target daemon that loses its connection may reclaim its id with the cookie of its reconnect
record.
-/

namespace Condor.Ccb

open List

/-- `CCBID`, an `unsigned long`. -/
abbrev CCBID := UInt64

def ccbidHash (ccbid : CCBID) : UInt32 := ccbid.toUInt32

/-- `CCBIDFromString`; no conversion is `none`. -/
def ccbidFromString (s : CString) : Option CCBID :=
  if (scanDecimal (bytes s)).isSome then some (sscanfUnsignedLong s 0) else none

def ccbidToString (ccbid : CCBID) : CString := decimal ccbid.toNat

/-- `CCBIDFromContactString`: what stands behind the first `#`. -/
def ccbidFromContactString (contact : CString) : Option CCBID :=
  match contact.dropWhile fun c => c.val ≠ 35 with
  | [] => none
  | _ :: s => ccbidFromString s

theorem ccbidFromString_ccbidToString (ccbid : CCBID) :
    ccbidFromString (ccbidToString ccbid) = some ccbid := by
  simp [ccbidFromString,ccbidToString,scanDecimal_decimal,sscanfUnsignedLong_decimal]

inductive Fault
  /-- An `ASSERT` failed or an `EXCEPT` was reached. -/
  | except
  | freed
  | looping
  deriving DecidableEq

inductive Attempt (α : Type)
  | taken
  | refused
  | placed (a : α)

/-- The loops of `AddTarget` and `AddRequest`, which count the id up until the insertion succeeds.
-/
def nextId {α : Type} (attempt : CCBID → Attempt α) : Nat → CCBID → Except Fault (α × CCBID × CCBID)
  | 0, _ => .error .looping
  | fuel + 1, next =>
    match attempt next with
    | .taken => nextId attempt fuel (next + 1)
    | .refused => .error .except
    | .placed a => .ok (a,next,next + 1)

def ids : Nat := 2^64

private theorem nextId_cases' {α : Type} {attempt : CCBID → Attempt α}
    (h : ∀ id, attempt id ≠ .refused) (fuel : Nat) (next : CCBID) :
    (∃ a id, attempt id = .placed a ∧ nextId attempt fuel next = .ok (a,id,id + 1)) ∨
      (nextId attempt fuel next = .error .looping ∧
        ∀ k < fuel, attempt (next + UInt64.ofNat k) = .taken) := by
  induction fuel generalizing next with
  | zero => exact .inr ⟨rfl,fun k hk => absurd hk (Nat.not_lt_zero k)⟩
  | succ fuel ih =>
    rw [nextId]
    cases ha : attempt next with
    | refused => exact absurd ha (h next)
    | placed a => exact .inl ⟨a,next,ha,rfl⟩
    | taken =>
      rcases ih (next + 1) with hplaced | ⟨hloop,htaken⟩
      · exact .inl hplaced
      · refine .inr ⟨hloop,?_⟩
        intro k hk
        cases k with
        | zero => simpa using ha
        | succ k =>
          have hs : UInt64.ofNat (k + 1) = 1 + UInt64.ofNat k := by
            rw [Nat.add_comm,UInt64.ofNat_add]
            rfl
          rw [hs,← UInt64.add_assoc]
          exact htaken k (by omega)

theorem nextId_cases {α : Type} {attempt : CCBID → Attempt α} (h : ∀ id, attempt id ≠ .refused)
    (next : CCBID) :
    (∃ a id, attempt id = .placed a ∧ nextId attempt ids next = .ok (a,id,id + 1)) ∨
      (nextId attempt ids next = .error .looping ∧ ∀ id, attempt id = .taken) := by
  rcases nextId_cases' h ids next with hplaced | ⟨hloop,htaken⟩
  · exact .inl hplaced
  · refine .inr ⟨hloop,?_⟩
    intro id
    have hid := htaken (id - next).toNat (id - next).toNat_lt
    rw [UInt64.ofNat_toNat] at hid
    rwa [UInt64.add_comm,UInt64.sub_add_cancel] at hid

structure CCBReconnectInfo where
  ccbid : CCBID
  reconnectCookie : CCBID
  lastAlive : Int
  peerIp : CString
  deriving DecidableEq

/-- `IP_STRING_BUF_SIZE` -/
def ipStringBufSize : Nat := 46

/-- The constructor; `strncpy` cuts the address to the size of the buffer. -/
def CCBReconnectInfo.new (ccbid reconnectCookie : CCBID) (peerIp : CString) (now : Int) :
    CCBReconnectInfo where
  ccbid := ccbid
  reconnectCookie := reconnectCookie
  lastAlive := now
  peerIp := peerIp.take (ipStringBufSize - 1)

abbrev ReconnectTable := HashTable CCBID CCBReconnectInfo

namespace ReconnectTable

def new : ReconnectTable := .initializeWith ccbidHash .rejectDuplicateKeys

/-- `AddReconnectInfo`: the record replaces another one of its id. -/
def addReconnectInfo (table : ReconnectTable) (info : CCBReconnectInfo) :
    Except Fault ReconnectTable :=
  match table.insert info.ccbid info with
  | (table',true) => .ok table'
  | (_,false) =>
    if table.lookup info.ccbid = none then .error .except
    else
      match (table.remove info.ccbid).insert info.ccbid info with
      | (table',true) => .ok table'
      | (_,false) => .error .except

def load (infos : List CCBReconnectInfo) : Except Fault ReconnectTable :=
  infos.foldlM addReconnectInfo new

def removeReconnectInfo (table : ReconnectTable) (info : CCBReconnectInfo) :
    Except Fault ReconnectTable :=
  if table.lookup info.ccbid = none then .error .except else .ok (table.remove info.ccbid)

def alive (now : Int) (info : CCBReconnectInfo) : CCBReconnectInfo := { info with lastAlive := now }

/-- The first loop of `SweepReconnectInfo`, over the ids of the connected targets. -/
def markAlive (now : Int) : List CCBID → ReconnectTable → Except Fault ReconnectTable
  | [], table => .ok table
  | ccbid :: ccbids, table =>
    if table.lookup ccbid = none then .error .except
    else markAlive now ccbids (table.adjust ccbid (alive now))

/-- A record expires when it has not been alive for twice the interval; the product is an `int`. -/
def expired (now interval : Int) (info : CCBReconnectInfo) : Bool :=
  toInt (2 * interval) < now - info.lastAlive

/-- The second loop of `SweepReconnectInfo`, which removes the record at which the iteration
stands. -/
def prune (now interval : Int) : List CCBReconnectInfo → ReconnectTable →
    Except Fault ReconnectTable
  | [], table => .ok table
  | info :: infos, table =>
    if expired now interval info then
      match table.removeReconnectInfo info with
      | .error fault => .error fault
      | .ok table' => prune now interval infos table'
    else prune now interval infos table

/-- Both loops of `SweepReconnectInfo`. -/
def sweep (now interval : Int) (connected : List CCBID) (table : ReconnectTable) :
    Except Fault ReconnectTable :=
  match markAlive now connected table with
  | .error fault => .error fault
  | .ok table' => prune now interval (table'.entries.map Prod.snd) table'

structure Filed (table : ReconnectTable) : Prop where
  unique : table.Unique
  rejects : table.duplicateKeyBehavior = .rejectDuplicateKeys
  own : ∀ ccbid info, table.lookup ccbid = some info → info.ccbid = ccbid

variable {table : ReconnectTable} {info : CCBReconnectInfo} {now interval : Int}

theorem lookup_new (ccbid : CCBID) : new.lookup ccbid = none := by
  simp [new,HashTable.lookup_eq_head?]

theorem Filed.new : Filed new where
  unique := HashTable.unique_initializeWith _ _
  rejects := rfl
  own ccbid info h := by simp [lookup_new] at h

theorem Filed.remove (h : table.Filed) (ccbid : CCBID) : Filed (table.remove ccbid) where
  unique := h.unique.remove ccbid
  rejects := h.rejects
  own ccbid' info hi := by
    rw [HashTable.lookup_remove h.unique] at hi
    split at hi
    · cases hi
    · exact h.own ccbid' info hi

private theorem Filed.addItem (h : table.Filed) (hnone : table.lookup info.ccbid = none) :
    Filed (table.addItem info.ccbid info) where
  unique := h.unique.addItem hnone info
  rejects := by rw [HashTable.duplicateKeyBehavior_addItem,h.rejects]
  own ccbid info' hi := by
    rw [HashTable.lookup_addItem h.unique hnone] at hi
    split at hi
    · next he =>
      cases hi
      exact he.symm
    · exact h.own ccbid info' hi

theorem Filed.addReconnectInfo (h : table.Filed) (info : CCBReconnectInfo) :
    ∃ table', table.addReconnectInfo info = .ok table' ∧ Filed table' ∧
      ∀ ccbid, table'.lookup ccbid = if ccbid = info.ccbid then some info
        else table.lookup ccbid := by
  unfold ReconnectTable.addReconnectInfo
  cases hl : table.lookup info.ccbid with
  | none =>
    rw [HashTable.insert_absent hl]
    exact ⟨_,rfl,h.addItem hl,HashTable.lookup_addItem h.unique hl info⟩
  | some old =>
    rw [HashTable.insert_present hl h.rejects]
    have hnone : HashTable.lookup (table.remove info.ccbid) info.ccbid = none := by
      rw [HashTable.lookup_remove h.unique,if_pos rfl]
    rw [HashTable.insert_absent hnone]
    simp only [reduceCtorEq,if_false]
    refine ⟨_,rfl,(h.remove info.ccbid).addItem hnone,?_⟩
    intro ccbid
    rw [HashTable.lookup_addItem (h.unique.remove info.ccbid) hnone,
      HashTable.lookup_remove h.unique]
    by_cases he : ccbid = info.ccbid <;> simp [he]

theorem Filed.foldlM (h : table.Filed) (infos : List CCBReconnectInfo) :
    ∃ table', infos.foldlM ReconnectTable.addReconnectInfo table = .ok table' ∧ Filed table' := by
  induction infos generalizing table with
  | nil => exact ⟨table,rfl,h⟩
  | cons info infos ih =>
    obtain ⟨table1,hadd,hfiled,-⟩ := h.addReconnectInfo info
    rw [foldlM_cons,hadd]
    exact ih hfiled

theorem filed_load (infos : List CCBReconnectInfo) :
    ∃ table, load infos = .ok table ∧ Filed table := Filed.new.foldlM infos

theorem Filed.adjust_alive (h : table.Filed) (ccbid : CCBID) :
    Filed (table.adjust ccbid (alive now)) where
  unique := h.unique.adjust ccbid _
  rejects := h.rejects
  own ccbid' info hi := by
    rw [HashTable.lookup_adjust] at hi
    split at hi
    · obtain ⟨old,hold,rfl⟩ := Option.map_eq_some_iff.mp hi
      exact h.own ccbid' old hold
    · exact h.own ccbid' info hi

variable {connected : List CCBID}

theorem Filed.markAlive (h : table.Filed) (now : Int)
    (hc : ∀ ccbid ∈ connected, table.lookup ccbid ≠ none) :
    ∃ table', markAlive now connected table = .ok table' ∧ Filed table' ∧
      ∀ ccbid, table'.lookup ccbid =
        if ccbid ∈ connected then (table.lookup ccbid).map (alive now) else table.lookup ccbid := by
  induction connected generalizing table with
  | nil => exact ⟨table,rfl,h,fun ccbid => by simp⟩
  | cons c connected ih =>
    have hlook := HashTable.lookup_adjust table c (alive now)
    have hc' : ∀ ccbid ∈ connected, HashTable.lookup (table.adjust c (alive now)) ccbid ≠ none := by
      intro ccbid hmem
      have hne := hc ccbid (mem_cons_of_mem _ hmem)
      rw [hlook]
      split
      · simpa using hne
      · exact hne
    obtain ⟨table',hok,hfiled,hspec⟩ := ih (h.adjust_alive c) hc'
    refine ⟨table',?_,hfiled,?_⟩
    · rw [ReconnectTable.markAlive,if_neg (hc c mem_cons_self)]
      exact hok
    · intro ccbid
      rw [hspec,hlook]
      by_cases hcc : ccbid = c
      · cases table.lookup ccbid <;> simp [hcc,alive]
      · simp [hcc]

private theorem Filed.prune_list (h : table.Filed) (now interval : Int)
    {infos : List CCBReconnectInfo}
    (hnd : (infos.map CCBReconnectInfo.ccbid).Nodup)
    (hin : ∀ info ∈ infos, table.lookup info.ccbid = some info) :
    ∃ table', prune now interval infos table = .ok table' ∧ Filed table' ∧
      ∀ ccbid, table'.lookup ccbid = if ∃ info ∈ infos, info.ccbid = ccbid ∧
        expired now interval info
        then none else table.lookup ccbid := by
  induction infos generalizing table with
  | nil => exact ⟨table,rfl,h,fun ccbid => by simp⟩
  | cons i infos ih =>
    have hi := hin i mem_cons_self
    rw [map_cons,nodup_cons] at hnd
    have hother : ∀ info ∈ infos, info.ccbid ≠ i.ccbid := by
      intro info hmem he
      exact hnd.1 (List.mem_map.mpr ⟨info,hmem,he⟩)
    by_cases hx : expired now interval i = true
    · have hlook := HashTable.lookup_remove h.unique i.ccbid
      have hin' : ∀ info ∈ infos, HashTable.lookup
        (table.remove i.ccbid) info.ccbid = some info := by
        intro info hmem
        rw [hlook,if_neg (hother info hmem)]
        exact hin info (mem_cons_of_mem _ hmem)
      obtain ⟨table',hok,hfiled,hspec⟩ := ih (h.remove i.ccbid) hnd.2 hin'
      refine ⟨table',?_,hfiled,?_⟩
      · rw [prune,if_pos hx,removeReconnectInfo,hi]
        simpa using hok
      · intro ccbid
        rw [hspec,hlook]
        by_cases he : ccbid = i.ccbid
        · simp [he,hx]
        · simp [he,Ne.symm he]
    · obtain ⟨table',hok,hfiled,hspec⟩ := ih h hnd.2
        (fun info hmem => hin info (mem_cons_of_mem _ hmem))
      refine ⟨table',?_,hfiled,?_⟩
      · rw [prune,if_neg hx]
        exact hok
      · intro ccbid
        rw [hspec]
        simp [hx]

theorem Filed.prune (h : table.Filed) (now interval : Int) :
    ∃ table', prune now interval (table.entries.map Prod.snd) table = .ok table' ∧ Filed table' ∧
      ∀ ccbid, table'.lookup ccbid = (table.lookup ccbid).filter
        fun info => !expired now interval info := by
  have hmem : ∀ info, info ∈ table.entries.map Prod.snd ↔ table.lookup info.ccbid = some info := by
    intro info
    rw [mem_map]
    constructor
    · rintro ⟨e,he,rfl⟩
      have hl := h.unique.lookup_of_mem he
      rw [h.own _ _ hl]
      exact hl
    · intro hl
      exact ⟨(info.ccbid,info),(h.unique.mem_entries_iff _).mpr hl,rfl⟩
  have hkeys : (table.entries.map Prod.snd).map CCBReconnectInfo.ccbid = table.entries.map
    Prod.fst := by
    rw [map_map]
    apply map_congr_left
    intro e he
    exact h.own _ _ (h.unique.lookup_of_mem he)
  obtain ⟨table',hok,hfiled,hspec⟩ := h.prune_list now interval
    (hkeys ▸ h.unique.nodup_keys) (fun info hi => (hmem info).mp hi)
  refine ⟨table',hok,hfiled,?_⟩
  intro ccbid
  rw [hspec]
  cases hl : table.lookup ccbid with
  | none => simp
  | some info =>
    have hown := h.own _ _ hl
    by_cases hx : expired now interval info = true
    · have hex : ∃ info ∈ table.entries.map Prod.snd, info.ccbid = ccbid ∧
        expired now interval info :=
        ⟨info,(hmem info).mpr (by rw [hown,hl]),hown,hx⟩
      rw [if_pos hex,Option.filter_some,hx]
      rfl
    · have hex : ¬∃ info ∈ table.entries.map Prod.snd, info.ccbid = ccbid ∧
        expired now interval info := by
        rintro ⟨info',hi',he,hx'⟩
        rw [hmem,he,hl] at hi'
        cases hi'
        exact hx hx'
      rw [if_neg hex,Option.filter_some,Bool.eq_false_iff.mpr hx]
      rfl

def afterSweep (now interval : Int) (connected : List CCBID) (ccbid : CCBID)
    (info : CCBReconnectInfo) : Option CCBReconnectInfo :=
  (some (if ccbid ∈ connected then alive now info else info)).filter
    fun info => !expired now interval info

theorem Filed.sweep (h : table.Filed) (now interval : Int)
    (hc : ∀ ccbid ∈ connected, table.lookup ccbid ≠ none) :
    ∃ table', sweep now interval connected table = .ok table' ∧ Filed table' ∧
      ∀ ccbid, table'.lookup ccbid =
        (table.lookup ccbid).bind (afterSweep now interval connected ccbid) := by
  obtain ⟨table1,hmark,hfiled1,hspec1⟩ := h.markAlive now hc
  obtain ⟨table',hprune,hfiled,hspec⟩ := hfiled1.prune now interval
  refine ⟨table',?_,hfiled,?_⟩
  · rw [ReconnectTable.sweep,hmark]
    exact hprune
  · intro ccbid
    rw [hspec,hspec1]
    cases table.lookup ccbid with
    | none => simp
    | some info => by_cases hm : ccbid ∈ connected <;> simp [afterSweep,hm]

/-- The records of the connected targets survive a sweep when twice the interval is no negative
`int`, and go with the others when it is. -/
theorem afterSweep_connected {ccbid : CCBID} (hm : ccbid ∈ connected) (info : CCBReconnectInfo) :
    afterSweep now interval connected ccbid info =
      if 0 ≤ toInt (2 * interval) then some (alive now info) else none := by
  by_cases h0 : 0 ≤ toInt (2 * interval)
  · have hx : ¬toInt (2 * interval) < 0 := by omega
    simp [afterSweep,hm,expired,alive,h0,hx]
  · have hx : toInt (2 * interval) < 0 := by omega
    simp [afterSweep,hm,expired,alive,h0,hx]

end ReconnectTable

end Condor.Ccb
