import Condor.Ccb.ReconnectFile

/-!
# The reconnect file agrees with the table

What the file loads to is a fold over its lines, in which the last line of an id wins.
-/

namespace Condor.Ccb

open Lib List Function

abbrev Saved := CCBID → Option (CCBID × CString)

def ReconnectTable.saved (table : ReconnectTable) : Saved := fun id =>
  (table.lookup id).map fun info => (info.reconnectCookie,info.peerIp)

def CCBReconnectInfo.Fits (info : CCBReconnectInfo) : Prop :=
  IsWord info.peerIp ∧ info.peerIp.length < ipStringBufSize

def encode (rs : List CCBReconnectInfo) : List Byte := rs.flatMap recordLine

theorem encode_eq_nil {rs : List CCBReconnectInfo} (h : encode rs = []) : rs = [] := by
  cases rs with
  | nil => rfl
  | cons r rs => simp [encode,recordLine] at h

def replay (m : Saved) (rs : List CCBReconnectInfo) : Saved :=
  rs.foldl (fun m r => update m r.ccbid (some (r.reconnectCookie,r.peerIp))) m

section Lines

variable {info : CCBReconnectInfo}

private theorem bytes_word {s : CString} (hs : IsWord s) :
    bytes s ≠ [] ∧ (∀ b ∈ bytes s, isspace b = false) := by
  constructor
  · intro h
    exact hs.1 (List.map_eq_nil_iff.mp h)
  · intro b hb
    obtain ⟨c,hc,rfl⟩ := List.mem_map.mp hb
    exact hs.2 c hc

private theorem bytes_ne_zero (s : CString) : ∀ b ∈ bytes s, b ≠ 0 := by
  intro b hb
  obtain ⟨c,-,rfl⟩ := List.mem_map.mp hb
  exact c.2

private def lineText (info : CCBReconnectInfo) : List Byte :=
  bytes info.peerIp ++ blank :: (bytes (ccbidToString info.ccbid) ++
    blank :: bytes (ccbidToString info.reconnectCookie))

private theorem recordLine_eq (info : CCBReconnectInfo) :
    recordLine info = lineText info ++ [newline] := by
  simp [recordLine,lineText]

private theorem lineText_length (h : info.Fits) : (lineText info).length < 127 := by
  have hip := h.2
  have hid : ∀ n : UInt64, (bytes (ccbidToString n)).length ≤ 20 := by
    intro n
    rw [bytes,length_map]
    exact decimal_length (by decide) (n.toNat_lt.trans (by decide))
  have h1 := hid info.ccbid
  have h2 := hid info.reconnectCookie
  have hlen : (bytes info.peerIp).length = info.peerIp.length := length_map _
  rw [ipStringBufSize] at hip
  simp only [lineText,length_append,length_cons,hlen]
  omega

private theorem lineText_ne_newline (h : info.Fits) : ∀ b ∈ lineText info, b ≠ newline := by
  have hword : ∀ s : CString, IsWord s → ∀ b ∈ bytes s, b ≠ newline := by
    intro s hs b hb he
    have hspace := (bytes_word hs).2 b hb
    rw [he] at hspace
    exact absurd hspace (by decide)
  intro b hb
  simp only [lineText,mem_append,mem_cons] at hb
  rcases hb with hb | rfl | hb | rfl | hb
  · exact hword _ h.1 b hb
  · decide
  · exact hword _ (decimal_isWord _) b hb
  · decide
  · exact hword _ (decimal_isWord _) b hb

private theorem fgets_recordLine (h : info.Fits) (rest : List Byte) :
    fgets 127 (recordLine info ++ rest) = (recordLine info,rest) := by
  rw [recordLine_eq,append_assoc,singleton_append]
  exact fgets_line (lineText_ne_newline h) (lineText_length h) rest

private theorem parseRecord_recordLine (h : info.Fits) (now : Int) :
    parseRecord (recordLine info) now = some { info with lastAlive := now } := by
  have hblank : isspace blank = true := by decide
  have hnewline : isspace newline = true := by decide
  have hnum : ∀ n : UInt64, bytes (ccbidToString n) ≠ [] ∧
      ∀ b ∈ bytes (ccbidToString n), isspace b = false := fun n => bytes_word (decimal_isWord _)
  have hip := bytes_word h.1
  have hzero : (recordLine info).takeWhile (fun b => decide (b ≠ 0)) = recordLine info := by
    rw [takeWhile_eq_self_iff]
    intro b hb
    simp only [recordLine,mem_append,mem_cons,not_mem_nil,or_false] at hb
    rw [decide_eq_true_eq]
    rcases hb with hb | rfl | hb | rfl | hb | rfl
    · exact bytes_ne_zero _ b hb
    · decide
    · exact bytes_ne_zero _ b hb
    · decide
    · exact bytes_ne_zero _ b hb
    · decide
  have htake : info.peerIp.take (ipStringBufSize - 1) = info.peerIp := by
    apply take_of_length_le
    have hlen := h.2
    omega
  simp only [parseRecord,hzero]
  simp only [recordLine,scanWord_word hip.1 hip.2 hblank,scanWord_space hblank,
    scanWord_word (hnum _).1 (hnum _).2 hblank,scanWord_word (hnum _).1 (hnum _).2 hnewline,
    toCString_bytes,ccbidFromString_ccbidToString,CCBReconnectInfo.new,htake]
  rw [if_neg]
  rintro (hc | hc | hc)
  · exact hip.1 hc
  · exact (hnum _).1 hc
  · exact (hnum _).1 hc

end Lines

section Loading

variable {m : Saved} {rs rs' : List CCBReconnectInfo}

theorem replay_append : replay m (rs ++ rs') = replay (replay m rs) rs' := foldl_append

private theorem replay_cases (id : CCBID) :
    (replay m rs id = m id ∧ ∀ r ∈ rs, r.ccbid ≠ id) ∨
      ∃ r ∈ rs, r.ccbid = id ∧ replay m rs id = some (r.reconnectCookie,r.peerIp) := by
  induction rs generalizing m with
  | nil => exact .inl ⟨rfl,fun r hr => absurd hr not_mem_nil⟩
  | cons r rs ih =>
    rcases @ih (update m r.ccbid (some (r.reconnectCookie,r.peerIp))) with
      ⟨hsame,hnone⟩ | ⟨r',hr',he,hval⟩
    · by_cases hid : id = r.ccbid
      · refine .inr ⟨r,mem_cons_self,hid.symm,?_⟩
        rw [replay,foldl_cons,← replay,hsame,hid,update_self]
      · refine .inl ⟨?_,?_⟩
        · rw [replay,foldl_cons,← replay,hsame,update_of_ne hid]
        · intro r' hr'
          rcases List.mem_cons.mp hr' with rfl | hr'
          · exact Ne.symm hid
          · exact hnone r' hr'
    · exact .inr ⟨r',mem_cons_of_mem _ hr',he,hval⟩

namespace ReconnectTable

variable {table : ReconnectTable}

theorem Filed.replay_entries (h : table.Filed) :
    replay (fun _ => none) (table.entries.map Prod.snd) = table.saved := by
  have hmem : ∀ r ∈ table.entries.map Prod.snd, table.lookup r.ccbid = some r := by
    intro r hr
    obtain ⟨e,he,rfl⟩ := List.mem_map.mp hr
    have hl := h.unique.lookup_of_mem he
    rw [h.own _ _ hl]
    exact hl
  funext id
  rcases @replay_cases (fun _ => none) (table.entries.map Prod.snd) id with
    ⟨hsame,hnone⟩ | ⟨r,hr,he,hval⟩
  · rw [hsame,saved]
    cases hl : table.lookup id with
    | none => rfl
    | some info =>
      have hin : info ∈ table.entries.map Prod.snd :=
        List.mem_map.mpr ⟨(id,info),(h.unique.mem_entries_iff _).mpr hl,rfl⟩
      exact absurd (h.own _ _ hl) (hnone info hin)
  · rw [hval,saved,← he,hmem r hr]
    rfl

theorem saved_add {table' : ReconnectTable} {info : CCBReconnectInfo} (hlook : ∀ id,
    table'.lookup id = if id = info.ccbid then some info else table.lookup id) :
    table'.saved = update table.saved info.ccbid (some (info.reconnectCookie,info.peerIp)) := by
  funext id
  rw [ReconnectTable.saved,hlook,update_apply]
  split <;> rfl

def Fits (table : ReconnectTable) : Prop := ∀ id info, table.lookup id = some info → info.Fits

theorem saved_new : saved new = fun _ => none := by
  funext id
  rw [saved,lookup_new]
  rfl

theorem fits_new : Fits new := by
  intro id info hi
  rw [lookup_new] at hi
  cases hi

def Low (table : ReconnectTable) : Prop := ∀ id, table.lookup id ≠ none → id.toNat + 101 < 2^64

/-- The counter while a file is loaded: it has reached every id, and can still go up by 100. -/
def Counted (table : ReconnectTable) (next : CCBID) : Prop :=
  table.Low → (∀ id, table.lookup id ≠ none → id.toNat ≤ next.toNat) ∧ next.toNat + 100 < 2^64

theorem Counted.add {table' : ReconnectTable} {next : CCBID} (h : table.Counted next)
    {info : CCBReconnectInfo} (hlook : ∀ id, table'.lookup id =
      if id = info.ccbid then some info else table.lookup id) :
    table'.Counted (if info.ccbid > next then info.ccbid + 1 else next) := by
  intro hlow
  have hin : ∀ id, table.lookup id ≠ none → table'.lookup id ≠ none := by
    intro id hid
    rw [hlook]
    split
    · simp
    · exact hid
  obtain ⟨hle,hnext⟩ := h fun id hid => hlow id (hin id hid)
  have hinfo := hlow info.ccbid (by simp [hlook])
  have hsucc : (info.ccbid + 1).toNat = info.ccbid.toNat + 1 := by
    rw [UInt64.toNat_add]
    exact Nat.mod_eq_of_lt (by show info.ccbid.toNat + 1 < 2^64; omega)
  split
  · next hgt =>
    have hgt' : next.toNat < info.ccbid.toNat := UInt64.lt_iff_toNat_lt.mp hgt
    refine ⟨?_,by omega⟩
    intro id hid
    rw [hlook] at hid
    split at hid
    · next he =>
      rw [he]
      omega
    · have hid' := hle id hid
      omega
  · next hgt =>
    have hgt' : info.ccbid.toNat ≤ next.toNat :=
      Nat.le_of_not_lt fun hlt => hgt (UInt64.lt_iff_toNat_lt.mpr hlt)
    refine ⟨?_,hnext⟩
    intro id hid
    rw [hlook] at hid
    split at hid
    · next he =>
      rw [he]
      exact hgt'
    · exact hle id hid

end ReconnectTable

private theorem loadLines_encode {table : ReconnectTable} (h : table.Filed) (hrs : ∀ r ∈ rs, r.Fits)
    (hfits : table.Fits) (now : Int) {fuel : Nat} (hfuel : (encode rs).length ≤ fuel) {next : CCBID}
    (hc : table.Counted next) :
    ∃ table' next', loadLines now fuel (encode rs) table next = .ok (table',next') ∧ table'.Filed ∧
      table'.Fits ∧ table'.saved = replay table.saved rs ∧ table'.Counted next' := by
  induction rs generalizing table fuel next with
  | nil =>
    refine ⟨table,next,?_,h,hfits,rfl,hc⟩
    cases fuel <;> simp [loadLines,encode]
  | cons r rs ih =>
    have hr := hrs r mem_cons_self
    have henc : encode (r :: rs) = recordLine r ++ encode rs := flatMap_cons
    have hpos : 0 < (recordLine r).length := by
      rw [recordLine]
      simp
    rw [henc,length_append] at hfuel
    cases fuel with
    | zero => omega
    | succ fuel =>
      obtain ⟨table1,hadd,hfiled,hlook⟩ := h.addReconnectInfo { r with lastAlive := now }
      have hfits1 : table1.Fits := by
        intro id info hi
        rw [hlook] at hi
        split at hi
        · cases hi
          exact hr
        · exact hfits id info hi
      have hsaved := ReconnectTable.saved_add hlook
      obtain ⟨table',next',hload,hfiled',hfits',hrep,hc'⟩ :=
        ih hfiled (fun r' hr' => hrs r' (mem_cons_of_mem _ hr')) hfits1
          (Nat.le_of_lt_succ (by omega : (encode rs).length < fuel + 1)) (hc.add hlook)
      refine ⟨table',next',?_,hfiled',hfits',?_,hc'⟩
      · have hne : recordLine r ++ encode rs ≠ [] := by
          intro he
          rw [append_eq_nil_iff] at he
          rw [he.1] at hpos
          exact absurd hpos (Nat.lt_irrefl 0)
        rw [henc,loadLines,if_neg hne,fgets_recordLine hr]
        dsimp only
        rw [parseRecord_recordLine hr]
        dsimp only
        rw [hadd]
        exact hload
      · rw [hrep,hsaved]
        rfl

theorem loadReconnectInfo_encode (hrs : ∀ r ∈ rs, r.Fits) (now : Int) :
    ∃ table next, loadReconnectInfo now (some (encode rs)) = .ok (table,next + 100) ∧ table.Filed ∧
      table.Fits ∧ table.saved = replay (fun _ => none) rs ∧ table.Counted next := by
  have hc : ReconnectTable.new.Counted 1 :=
    fun _ => ⟨fun id hid => absurd (ReconnectTable.lookup_new id) hid,by decide⟩
  obtain ⟨table,next,hload,hfiled,hfits',hrep,hc'⟩ :=
    loadLines_encode .new hrs ReconnectTable.fits_new now (Nat.le_refl _) hc
  refine ⟨table,next,?_,hfiled,hfits',?_,hc'⟩
  · rw [loadReconnectInfo,hload]
    rfl
  · rw [hrep,ReconnectTable.saved_new]

end Loading

end Condor.Ccb
