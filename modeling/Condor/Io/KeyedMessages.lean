import Condor.Io.KeyedPackets

/-!
# Messages under keys

As long as the key ids fit into the header and every message of a socket with keys fits into one
packet, the keys last: every message carries a header that names them.
-/

namespace Condor.Io

open Lib List Option

structure Keys where
  md : Option CString
  enc : Option CString
  deriving DecidableEq

namespace Keys

def none : Keys := ⟨.none,.none⟩

def ids (k : Keys) : KeyIds := ⟨k.md.map bytes,k.enc.map bytes⟩

def mdRoom (k : Keys) : Nat := k.md.elim 0 fun id => macSize + id.length

def encRoom (k : Keys) : Nat := k.enc.elim 0 List.length

def space (k : Keys) : Nat :=
  (if k.md.isSome || k.enc.isSome then safeMsgCryptoHeaderSize else 0) + k.mdRoom + k.encRoom

structure Proper (k : Keys) : Prop where
  md : ∀ id, k.md = some id → id.length < 2^15
  enc : ∀ id, k.enc = some id → id.length < 2^15
  room : k.md.isSome ∨ k.enc.isSome → 0 < k.mdRoom + k.encRoom

end Keys

namespace CondorPacket

structure Names (p : CondorPacket) (k : Keys) : Prop where
  md : p.outgoingMD5KeyId = k.md
  mdLen : p.outgoingMdLen = (k.md.elim 0 List.length : Nat)
  enc : p.outgoingEncKeyId = k.enc
  eidLen : p.outgoingEidLen = k.encRoom

structure Held (p : CondorPacket) (k : Keys) : Prop extends p.Names k where
  curIndex : p.curIndex = k.space
  length : p.length = k.space

private theorem toShort_eq {n : Nat} (h : n < 2^15) : toShort n = n :=
  Int.bmod_eq_of_le (by omega) (by omega)

variable {p : CondorPacket} {k : Keys}

theorem forward_eq (hn : p.Names k) (hk : k.Proper) :
    p.forward = k.space := by
  have hroom := hk.room
  have hmd : (if p.outgoingMD5KeyId.isSome then macSize + p.outgoingMdLen else 0) =
      (k.mdRoom : Int) := by
    rw [hn.md,hn.mdLen,Keys.mdRoom]
    cases k.md <;> simp
  have henc : (if p.outgoingEncKeyId.isSome then p.outgoingEidLen else 0) = (k.encRoom : Int) := by
    rw [hn.enc,hn.eidLen,Keys.encRoom]
    cases k.enc <;> simp
  unfold forward
  dsimp only
  rw [hmd,henc,Keys.space]
  by_cases hsome : k.md.isSome ∨ k.enc.isSome
  · have hpos := hroom hsome
    rw [if_pos (by omega),if_pos (by simpa using hsome)]
    omega
  · have hzero : k.mdRoom = 0 ∧ k.encRoom = 0 := by
      simp only [not_or,Bool.not_eq_true,isSome_eq_false_iff,isNone_iff_eq_none]
        at hsome
      rw [Keys.mdRoom,Keys.encRoom,hsome.1,hsome.2]
      exact ⟨rfl,rfl⟩
    rw [if_neg (by omega),if_neg (by simpa using hsome)]
    omega

theorem empty_iff (hn : p.Names k) (hk : k.Proper) :
    p.empty = true ↔ p.length = k.space := by
  rw [empty,forward_eq hn hk,beq_iff_eq]

private theorem held_reset (hn : p.Names k) (hk : k.Proper) :
    p.reset.Held k where
  md := hn.md
  mdLen := hn.mdLen
  enc := hn.enc
  eidLen := hn.eidLen
  curIndex := forward_eq hn hk
  length := forward_eq hn hk

private theorem held_new : CondorPacket.new.Held Keys.none := ⟨⟨rfl,rfl,rfl,rfl⟩,rfl,rfl⟩

private theorem space_none_none : Keys.space ⟨none,none⟩ = 0 := rfl

private theorem space_some_none (m : CString) : Keys.space ⟨some m,none⟩ = 26 + m.length := by
  show 10 + (16 + m.length) + 0 = _
  omega

private theorem space_none_some (e : CString) : Keys.space ⟨none,some e⟩ = 10 + e.length := rfl

private theorem space_some_some (m e : CString) :
    Keys.space ⟨some m,some e⟩ = 26 + m.length + e.length := by
  show 10 + (16 + m.length) + e.length = _
  omega

private theorem withKey_eq (cur size : Int) : withKey cur size = if cur =
    0 then 10 + size else cur + size := by
  unfold withKey
  split
  · next h =>
    rw [h]
    rfl
  · rfl

private theorem withoutKey_eq (cur size : Int) :
    withoutKey cur size = if cur > 0 ∧ cur - size ≠ 10 then cur - size
      else if cur > 0 then 0 else cur := by
  have hc : (safeMsgCryptoHeaderSize : Int) = 10 := rfl
  unfold withoutKey
  rw [hc]
  split
  · split <;> split <;> omega
  · split <;> omega

private theorem withoutKey_enc (md : Option CString) {e : CString} (hk : Keys.Proper ⟨md,some e⟩) :
    withoutKey (Keys.space ⟨md,some e⟩) e.length = Keys.space ⟨md,none⟩ := by
  have hroom := hk.room (.inr rfl)
  rw [withoutKey_eq]
  cases md with
  | none =>
    have hpos : 0 < 0 + e.length := hroom
    rw [space_none_some,space_none_none]
    split <;> omega
  | some m =>
    rw [space_some_some,space_some_none]
    split <;> omega

private theorem withKey_enc (md : Option CString) (e : CString) :
    withKey (Keys.space ⟨md,none⟩) e.length = Keys.space ⟨md,some e⟩ := by
  rw [withKey_eq]
  cases md with
  | none => rfl
  | some m =>
    rw [space_some_none,space_some_some]
    split <;> omega

private theorem withoutKey_md (m : CString) {enc : Option CString} (hk : Keys.Proper ⟨none,enc⟩) :
    withoutKey (Keys.space ⟨some m,enc⟩) (macSize + m.length) = Keys.space ⟨none,enc⟩ := by
  have hm : (macSize : Int) = 16 := rfl
  rw [withoutKey_eq,hm]
  cases enc with
  | none =>
    rw [space_some_none,space_none_none]
    split <;> omega
  | some e =>
    have hpos : 0 < 0 + e.length := hk.room (.inr rfl)
    rw [space_some_some,space_none_some]
    split <;> omega

private theorem withKey_md (m : CString) (enc : Option CString) :
    withKey (Keys.space ⟨none,enc⟩) (macSize + m.length) = Keys.space ⟨some m,enc⟩ := by
  have hm : (macSize : Int) = 16 := rfl
  rw [withKey_eq,hm]
  cases enc with
  | none =>
    rw [space_some_none]
    show 10 + (16 + (m.length : Int)) = _
    omega
  | some e =>
    rw [space_none_some,space_some_some]
    split <;> omega

private theorem withKey_withoutKey_md (m m' : CString) (enc : Option CString) :
    withKey (withoutKey (Keys.space ⟨some m,enc⟩) (macSize + m.length)) (macSize + m'.length) =
      Keys.space ⟨some m',enc⟩ := by
  have hm : (macSize : Int) = 16 := rfl
  rw [withKey_eq,withoutKey_eq,hm]
  cases enc with
  | none =>
    rw [space_some_none,space_some_none]
    split <;> split <;> omega
  | some e =>
    rw [space_some_some,space_some_some]
    split <;> split <;> omega

private theorem withoutKey_nonneg (m : CString) (enc : Option CString) :
    0 ≤ withoutKey (Keys.space ⟨some m,enc⟩) (macSize + m.length) := by
  have hm : (macSize : Int) = 16 := rfl
  rw [withoutKey_eq,hm]
  cases enc with
  | none =>
    rw [space_some_none]
    split <;> omega
  | some e =>
    rw [space_some_some]
    split <;> omega

private theorem setEncryptionId_held (h : p.Held k) (hk : k.Proper)
    {keyId : Option CString} (hk' : Keys.Proper { k with enc := keyId }) :
    ∃ p', p.setEncryptionId keyId = some p' ∧ p'.Held { k with enc := keyId } := by
  obtain ⟨md,enc⟩ := k
  have hempty : p.empty = true := (empty_iff h.toNames hk).mpr h.length
  have hcur : (if p.outgoingEncKeyId.isSome then withoutKey p.curIndex p.outgoingEidLen
      else p.curIndex) = (Keys.space ⟨md,none⟩ : Nat) := by
    rw [h.enc,h.eidLen,h.curIndex]
    cases enc with
    | none => rfl
    | some e => exact withoutKey_enc md hk
  unfold setEncryptionId
  rw [if_pos hempty]
  dsimp only
  rw [hcur,if_neg (by rintro ⟨-,-,hneg⟩; omega)]
  cases keyId with
  | none => exact ⟨_,rfl,⟨h.md,h.mdLen,rfl,rfl⟩,rfl,rfl⟩
  | some e =>
    have hlen : toShort e.length = e.length := toShort_eq (hk'.enc e rfl)
    dsimp only
    rw [hlen,withKey_enc]
    exact ⟨_,rfl,⟨h.md,h.mdLen,rfl,rfl⟩,rfl,rfl⟩

private theorem initMD_held (h : p.Held k) (hk : k.Proper)
    {keyId : Option CString} (hk' : Keys.Proper { k with md := keyId }) :
    ∃ p', p.initMD keyId = some p' ∧ p'.Held { k with md := keyId } := by
  obtain ⟨md,enc⟩ := k
  have hempty : p.empty = true := (empty_iff h.toNames hk).mpr h.length
  have hcur : (if p.outgoingMD5KeyId.isSome then
      withoutKey p.curIndex (macSize + p.outgoingMdLen) else p.curIndex) =
      md.elim (Keys.space ⟨none,enc⟩ : Int) fun m =>
        withoutKey (Keys.space ⟨some m,enc⟩) (macSize + m.length) := by
    rw [h.md,h.mdLen,h.curIndex]
    cases md with
    | none | some => rfl
  have hnonneg : 0 ≤ md.elim (Keys.space ⟨none,enc⟩ : Int) fun m =>
      withoutKey (Keys.space ⟨some m,enc⟩) (macSize + m.length) := by
    cases md with
    | none => exact Int.natCast_nonneg _
    | some m => exact withoutKey_nonneg m enc
  unfold initMD
  rw [if_pos hempty]
  dsimp only
  rw [hcur,if_neg (by rintro ⟨-,-,hneg⟩; omega)]
  cases keyId with
  | none =>
    have hroom : (md.elim (Keys.space ⟨none,enc⟩ : Int) fun m =>
        withoutKey (Keys.space ⟨some m,enc⟩) (macSize + m.length)) =
        (Keys.space ⟨none,enc⟩ : Nat) := by
      cases md with
      | none => rfl
      | some m => exact withoutKey_md m hk'
    exact ⟨_,rfl,⟨rfl,rfl,h.enc,h.eidLen⟩,hroom,hroom⟩
  | some m' =>
    have hlen : toShort m'.length = m'.length := toShort_eq (hk'.md m' rfl)
    have hroom : withKey (md.elim (Keys.space ⟨none,enc⟩ : Int) fun m =>
        withoutKey (Keys.space ⟨some m,enc⟩) (macSize + m.length)) (macSize + m'.length) =
        (Keys.space ⟨some m',enc⟩ : Nat) := by
      cases md with
      | none => exact withKey_md m' enc
      | some m => exact withKey_withoutKey_md m m' enc
    dsimp only
    rw [hlen,hroom]
    exact ⟨_,rfl,⟨rfl,rfl,h.enc,h.eidLen⟩,rfl,rfl⟩

theorem length_content (p : CondorPacket) : p.content.length = p.length.toNat := by
  rw [content,length_map,length_range]

private theorem content_write (data : Nat → Byte) {n : Nat} {bs : List Byte} (h : bs.length ≤ n) :
    (List.range n).map (write data 0 bs) = bs ++ ((List.range n).map data).drop bs.length := by
  apply ext_getElem
  · simp
    omega
  · intro i hi hi'
    simp only [getElem_map,getElem_range,write,Nat.zero_le,true_and,Nat.zero_add,
      Nat.sub_zero,getElem_append,getElem_drop]
    by_cases hlt : i < bs.length
    · rw [if_pos hlt,dif_pos hlt,getD_eq_getElem?_getD,getElem?_eq_getElem hlt]
      rfl
    · rw [if_neg hlt,dif_neg hlt,show bs.length + (i - bs.length) = i by omega]

theorem content_append (data : Nat → Byte) (n : Nat) (bs : List Byte) :
    (List.range (n + bs.length)).map (write data n bs) = (List.range n).map data ++ bs := by
  apply ext_getElem
  · simp
  · intro i hi hi'
    simp only [getElem_map,getElem_range,write,getElem_append,length_map,
      length_range]
    by_cases hlt : i < n
    · rw [if_neg (by omega),dif_pos hlt]
    · rw [length_map,length_range] at hi
      rw [if_pos (by omega),dif_neg hlt,getD_eq_getElem?_getD,getElem?_eq_getElem]
      rfl

private theorem putMax_spec {n : Nat} (hcur : p.curIndex = n) (hlen : p.length = n)
    (hn : n ≤ usablePacketSize) (dta : List Byte) :
    ∃ p', p.putMax dta = some (p',min dta.length (usablePacketSize - n)) ∧
      (∀ k, p.Names k → p'.Names k) ∧
      p'.length = (n + min dta.length (usablePacketSize - n) : Nat) ∧ p'.curIndex = p'.length ∧
      p'.content = p.content ++ dta.take (usablePacketSize - n) := by
  have hmin : (if (dta.length : Int) > (usablePacketSize : Int) - (n : Int) then
      (usablePacketSize : Int) - (n : Int) else (dta.length : Int)) =
      (min dta.length (usablePacketSize - n) : Nat) := by
    split <;> omega
  unfold putMax
  dsimp only
  rw [hcur,hmin,if_neg (by omega)]
  refine ⟨_,rfl,fun k hk => ⟨hk.md,hk.mdLen,hk.enc,hk.eidLen⟩,rfl,rfl,?_⟩
  have htake : (dta.take (min dta.length (usablePacketSize - n))).length =
      min dta.length (usablePacketSize - n) := by
    rw [length_take]
    omega
  have happ := content_append p.data n (dta.take (min dta.length (usablePacketSize - n)))
  rw [htake] at happ
  rw [content,content,hlen]
  dsimp only
  rw [Int.toNat_natCast,Int.toNat_natCast]
  refine Eq.trans ?_ (happ.trans ?_)
  · congr 1
  · rw [Nat.min_comm,← take_take,take_length]

private theorem cryptoHeader_eq (hn : p.Names k) (mac : Option Mac) :
    p.cryptoHeader mac = secHeader k.ids (mac.map Subtype.val) := by
  obtain ⟨md,enc⟩ := k
  unfold cryptoHeader extendedHeader secHeader Keys.ids
  rw [hn.md,hn.mdLen,hn.enc,hn.eidLen,Keys.encRoom]
  have hlen : ∀ id : CString, (bytes id).length = id.length := fun id => length_map _
  have htake : ∀ id : CString, (bytes id).take id.length = bytes id := by
    intro id
    rw [← hlen,take_length]
  cases md with
  | none =>
    cases enc with
    | none => rfl
    | some e =>
      cases mac <;> simp [htake,hlen]
  | some m =>
    cases enc with
    | none | some => cases mac <;> simp [htake,hlen]

theorem length_secHeader_ids {mac : Option Mac} (h : k.md.isSome → mac.isSome) :
    (secHeader k.ids (mac.map Subtype.val)).length = k.space := by
  obtain ⟨md,enc⟩ := k
  have hlen : ∀ id : CString, (bytes id).length = id.length := fun id => length_map _
  unfold secHeader Keys.ids
  cases md with
  | none =>
    cases enc with
    | none => rfl
    | some e =>
      rw [space_none_some]
      cases mac with
      | none | some =>
        simp [cryptoTag,htons,hlen]
        omega
  | some m =>
    obtain ⟨mac,rfl⟩ := Option.isSome_iff_exists.mp (h rfl)
    have hmac : mac.val.length = 16 := mac.2
    cases enc with
    | none =>
      rw [space_some_none]
      simp [cryptoTag,htons,hlen,hmac]
      omega
    | some e =>
      rw [space_some_some]
      simp [cryptoTag,htons,hlen,hmac]
      omega

private theorem makeHeader_names (hn : p.Names k) (last : Bool) (seqNo : Nat)
    (msgID : MsgID) (mac : Option Mac) : (p.makeHeader last seqNo msgID mac).2.Names k :=
  ⟨hn.md,hn.mdLen,hn.enc,hn.eidLen⟩

private theorem content_makeHeader (hn : p.Names k) {mac : Option Mac}
    (hmac : k.md.isSome → mac.isSome) (hspace : (k.space : Int) ≤ p.length) (last : Bool)
    (seqNo : Nat) (msgID : MsgID) :
    (p.makeHeader last seqNo msgID mac).2.content =
      secHeader k.ids (mac.map Subtype.val) ++ p.content.drop k.space := by
  have hlen := length_secHeader_ids hmac
  have hfits : (secHeader k.ids (mac.map Subtype.val)).length ≤ p.length.toNat := by
    rw [hlen]
    omega
  have hw := content_write p.data hfits
  rw [hlen] at hw
  rw [makeHeader,cryptoHeader_eq hn]
  exact hw

end CondorPacket

namespace CondorOutMsg

open CondorPacket

def packets (m : CondorOutMsg) : List CondorPacket := m.init ++ [m.last]

/-- Only the head packet has the keys; all but the last are full; and they hold what has been
put. -/
structure Filling (k : Keys) (m : CondorOutMsg) (payload : List Byte) : Prop where
  head : m.headPacket.Names k
  tail : ∀ p ∈ m.packets.tail, p.Names Keys.none
  full : ∀ p ∈ m.init, p.length = usablePacketSize
  curIndex : m.last.curIndex = m.last.length
  nonneg : 0 ≤ m.last.length
  le : m.last.length ≤ usablePacketSize
  started : m.init ≠ [] → 0 < m.last.length
  content : (m.packets.flatMap content).drop k.space = payload
  total : (m.packets.flatMap CondorPacket.content).length = k.space + payload.length

variable {k : Keys}

private theorem filling_held {p : CondorPacket} (h : p.Held k) (hle : k.space ≤ usablePacketSize) :
    Filling k ⟨[],p⟩ [] := by
  have hlen : (([] ++ [p] : List CondorPacket).flatMap CondorPacket.content).length = k.space := by
    rw [nil_append,flatMap_singleton,length_content,h.length]
    exact Int.toNat_natCast _
  have hp := h.length
  have hc := h.curIndex
  constructor
  case head => exact h.toNames
  case tail => simp [packets]
  case full => simp
  case curIndex => exact hc.trans hp.symm
  case nonneg => dsimp only; omega
  case le => dsimp only; omega
  case started => simp
  case content =>
    rw [packets,drop_eq_nil_iff]
    exact le_of_eq hlen
  case total => exact hlen

private theorem tail_append_singleton {α : Type} (l : List α) (a b : α) :
    (l ++ [a] ++ [b]).tail = (l ++ [a]).tail ++ [b] := by
  cases l <;> rfl

private theorem flatMap_append_take (l : List CondorPacket) (p : CondorPacket)
    {before dta : List Byte}
    {n : Nat} (h : p.content = before ++ dta.take n) :
    (l ++ [p]).flatMap CondorPacket.content =
      l.flatMap CondorPacket.content ++ before ++ dta.take (min dta.length n) := by
  rw [flatMap_append,flatMap_singleton,h,append_assoc]
  congr 2
  rw [Nat.min_comm,← take_take,take_length]

variable {m : CondorOutMsg} {payload dta : List Byte}

private theorem putMax_new
    (h : Filling k m payload) (hdta : dta ≠ []) (hfull : m.last.curIndex = usablePacketSize) :
    ∃ r, CondorPacket.new.putMax dta = some r ∧ 0 < r.2 ∧ r.2 ≤ dta.length ∧
      Filling k ⟨m.init ++ [m.last],r.1⟩ (payload ++ dta.take r.2) := by
  have hpos : 0 < dta.length := length_pos_of_ne_nil hdta
  have hlast : m.last.length = usablePacketSize := h.curIndex ▸ hfull
  have hu : usablePacketSize = 975 := rfl
  obtain ⟨p',hput,hnames,hlen',hcur',happ⟩ :=
    putMax_spec (p := CondorPacket.new) (n := 0) rfl rfl (Nat.zero_le _) dta
  have hpackets := flatMap_append_take m.packets p' happ
  rw [show CondorPacket.new.content = [] from rfl,append_nil] at hpackets
  have htotal := h.total
  refine ⟨_,hput,by dsimp only; omega,by dsimp only; omega,?_⟩
  dsimp only
  constructor
  case head =>
    have hhead : (⟨m.init ++ [m.last],p'⟩ : CondorOutMsg).headPacket = m.headPacket := by
      rw [headPacket,headPacket]
      cases m.init <;> rfl
    rw [hhead]
    exact h.head
  case tail =>
    intro p hp
    rw [packets,tail_append_singleton] at hp
    rcases List.mem_append.mp hp with hp | hp
    · exact h.tail p hp
    · rw [List.mem_singleton.mp hp]
      exact hnames _ held_new.toNames
  case full =>
    intro p hp
    rcases List.mem_append.mp hp with hp | hp
    · exact h.full p hp
    · rw [List.mem_singleton.mp hp,hlast]
  case curIndex => exact hcur'
  case nonneg => dsimp only; omega
  case le => dsimp only; omega
  case started => intro _; dsimp only; omega
  case content =>
    rw [packets,show m.init ++ [m.last] = m.packets from rfl,hpackets,
      drop_append_of_le_length (by omega),h.content]
  case total =>
    rw [packets,show m.init ++ [m.last] = m.packets from rfl,hpackets,length_append,
      length_append,htotal]
    omega

private theorem putMax_last
    (h : Filling k m payload) (hdta : dta ≠ []) (hroom : m.last.curIndex ≠ usablePacketSize) :
    ∃ r, m.last.putMax dta = some r ∧ 0 < r.2 ∧ r.2 ≤ dta.length ∧
      Filling k ⟨m.init,r.1⟩ (payload ++ dta.take r.2) := by
  have hpos : 0 < dta.length := length_pos_of_ne_nil hdta
  have hcur := h.curIndex
  have hle := h.le
  obtain ⟨n,hn⟩ := Int.eq_ofNat_of_zero_le h.nonneg
  obtain ⟨p',hput,hnames,hlen',hcur',happ⟩ := putMax_spec (hcur.trans hn) hn (by omega) dta
  have hpackets := flatMap_append_take m.init p' happ
  have hold : m.init.flatMap CondorPacket.content ++ m.last.content =
      m.packets.flatMap CondorPacket.content := by
    rw [packets,flatMap_append,flatMap_singleton]
  rw [hold] at hpackets
  have htotal := h.total
  refine ⟨_,hput,by dsimp only; omega,by dsimp only; omega,?_⟩
  dsimp only
  constructor
  case head =>
    have hhead := h.head
    rw [headPacket] at hhead ⊢
    cases hinit : m.init with
    | nil =>
      rw [hinit] at hhead
      exact hnames k hhead
    | cons q init =>
      rw [hinit] at hhead
      exact hhead
  case tail =>
    intro p hp
    have htail := h.tail
    rw [packets] at htail hp
    cases hinit : m.init with
    | nil =>
      rw [hinit] at hp
      simp at hp
    | cons q init =>
      rw [hinit] at hp htail
      rcases List.mem_append.mp (show p ∈ init ++ [p'] from hp) with hp | hp
      · exact htail p (mem_append_left _ hp)
      · rw [List.mem_singleton.mp hp]
        exact hnames _ (htail m.last (mem_append_right _ (mem_singleton_self _)))
  case full => exact h.full
  case curIndex => exact hcur'
  case nonneg => dsimp only; omega
  case le => dsimp only; omega
  case started => intro _; dsimp only; omega
  case content => rw [packets,hpackets,drop_append_of_le_length (by omega),h.content]
  case total =>
    rw [packets,hpackets,length_append,length_append,htotal]
    omega

/-- The message with room in its last packet. -/
def roomy (m : CondorOutMsg) : CondorOutMsg :=
  if m.last.full then ⟨m.init ++ [m.last],.new⟩ else m

private theorem putMax_filling (h : Filling k m payload) (hdta : dta ≠ []) :
    ∃ r, m.roomy.last.putMax dta = some r ∧ 0 < r.2 ∧ r.2 ≤ dta.length ∧
      Filling k ⟨m.roomy.init,r.1⟩ (payload ++ dta.take r.2) := by
  by_cases hfull : m.last.full = true
  · rw [roomy,if_pos hfull]
    exact putMax_new h hdta (beq_iff_eq.mp hfull)
  · rw [roomy,if_neg hfull]
    exact putMax_last h hdta fun he => hfull (beq_iff_eq.mpr he)

private theorem putn_cons (fuel : Nat) (m : CondorOutMsg) (b : Byte) (rest : List Byte) :
    m.putn (fuel + 1) (b :: rest) = (m.roomy.last.putMax (b :: rest)).bind fun r =>
      putn fuel ⟨m.roomy.init,r.1⟩ ((b :: rest).drop r.2) := rfl

private theorem putn_filling {fuel : Nat} (h : Filling k m payload) (hfuel : dta.length < fuel) :
    ∃ m', m.putn fuel dta = some m' ∧ Filling k m' (payload ++ dta) := by
  induction fuel generalizing m payload dta with
  | zero => omega
  | succ fuel ih =>
    cases dta with
    | nil => exact ⟨m,rfl,by rwa [append_nil]⟩
    | cons b rest =>
      obtain ⟨r,hput,hpos,hle,hfill⟩ := putMax_filling h (cons_ne_nil b rest)
      have hshorter : ((b :: rest).drop r.2).length < fuel := by
        rw [length_drop]
        omega
      obtain ⟨m',hm',hfill'⟩ := ih hfill hshorter
      refine ⟨m',?_,?_⟩
      · rw [putn_cons,hput]
        exact hm'
      · rwa [append_assoc,take_append_drop] at hfill'

private theorem putAll_filling {payload : List Byte} (puts : List (List Byte))
    (h : Filling k m payload) :
    ∃ m', m.putAll puts = some m' ∧ Filling k m' (payload ++ puts.flatten) := by
  induction puts generalizing m payload with
  | nil => exact ⟨m,rfl,by simpa using h⟩
  | cons dta more ih =>
    obtain ⟨m1,hm1,h1⟩ := putn_filling h (Nat.lt_succ_self dta.length)
    obtain ⟨m2,hm2,h2⟩ := ih h1
    refine ⟨m2,?_,?_⟩
    · rw [putAll,hm1]
      exact hm2
    · rwa [append_assoc] at h2

/-- The message of fixed keys with the same bytes. -/
def plain (k : Keys) (m : CondorOutMsg) : OutMsg := ⟨k.ids,m.init.map content,m.last.content⟩

private theorem plain_roomy (h : Filling k m payload) : plain k m.roomy =
    if m.last.content.length = usablePacketSize then
      { plain k m with packets := (plain k m).packets ++ [m.last.content], last := [] }
    else plain k m := by
  have hfull : m.last.full = true ↔ m.last.content.length = usablePacketSize := by
    have hcur := h.curIndex
    have hnonneg := h.nonneg
    rw [CondorPacket.full,beq_iff_eq,length_content]
    omega
  by_cases hf : m.last.full = true
  · rw [roomy,if_pos hf,if_pos (hfull.mp hf),plain,map_append]
    rfl
  · rw [roomy,if_neg hf,if_neg (mt hfull.mpr hf)]

private theorem putMax_content (h : Filling k m payload) (dta : List Byte) :
    ∃ r, m.roomy.last.putMax dta = some r ∧
      r.1.content = m.roomy.last.content ++
        dta.take (usablePacketSize - m.roomy.last.content.length) ∧
      dta.drop r.2 = dta.drop (usablePacketSize - m.roomy.last.content.length) := by
  have hroomy : m.roomy.last.curIndex = m.roomy.last.length ∧ 0 ≤ m.roomy.last.length ∧
      m.roomy.last.length ≤ usablePacketSize := by
    rw [roomy]
    split
    · exact ⟨rfl,le_rfl,Int.natCast_nonneg _⟩
    · exact ⟨h.curIndex,h.nonneg,h.le⟩
  obtain ⟨n,hn⟩ := Int.eq_ofNat_of_zero_le hroomy.2.1
  have hle : n ≤ usablePacketSize := by omega
  obtain ⟨p',hput,-,-,-,happ⟩ := putMax_spec (hroomy.1.trans hn) hn hle dta
  rw [length_content,hn,Int.toNat_natCast]
  refine ⟨_,hput,happ,?_⟩
  rcases Nat.le_total dta.length (usablePacketSize - n) with hd | hd
  · rw [Nat.min_eq_left hd,drop_length,drop_eq_nil_of_le hd]
  · rw [Nat.min_eq_right hd]

/-- Bytes are put into a message as into the one of fixed keys. -/
theorem plain_putn {fuel : Nat} (h : Filling k m payload) :
    (m.putn fuel dta).map (plain k) = (plain k m).putn fuel dta := by
  induction fuel generalizing m payload dta with
  | zero => cases dta <;> rfl
  | succ fuel ih =>
    cases dta with
    | nil => rfl
    | cons b rest =>
      obtain ⟨r,hput,-,-,hfill⟩ := putMax_filling h (cons_ne_nil b rest)
      obtain ⟨r',hput',hcontent,hdrop⟩ := putMax_content h (b :: rest)
      obtain rfl : r = r' := some.inj (hput.symm.trans hput')
      rw [putn_cons,hput,bind_some,ih hfill,hdrop,plain,hcontent]
      exact congrArg (fun m' : OutMsg => OutMsg.putn fuel
        { m' with last := m'.last ++ (b :: rest).take (usablePacketSize - m'.last.length) }
        ((b :: rest).drop (usablePacketSize - m'.last.length))) (plain_roomy h)

/-- And a whole message is. -/
theorem plain_putAll (puts : List (List Byte)) (h : Filling k m payload) :
    (m.putAll puts).map (plain k) = (plain k m).putAll puts := by
  induction puts generalizing m payload with
  | nil => rfl
  | cons dta more ih =>
    obtain ⟨m1,hm1,h1⟩ := putn_filling h (Nat.lt_succ_self dta.length)
    rw [putAll,OutMsg.putAll,← plain_putn h,hm1]
    exact ih h1

/-- The datagrams of a message: the header of its keys and the bytes that were put, in one datagram
or in fragments. -/
def NamesKeys (k : Keys) (mac : Option Mac) (msgID : MsgID) (payload : List Byte) (s : Sent) :
    Prop :=
  0 ≤ s.retval →
    if payload = [] then s.datagrams = []
    else
      s.datagrams = [secHeader k.ids (mac.map Subtype.val) ++ payload] ∨
      ∃ bodies, s.datagrams = longDatagrams msgID 0 bodies ∧
        bodies.flatten = secHeader k.ids (mac.map Subtype.val) ++ payload

private theorem makeHeader_plain {p : CondorPacket} (hp : p.Names Keys.none) (hlen : 0 ≤ p.length)
    (last : Bool) (seqNo : Nat) (msgID : MsgID) (mac : Option Mac) :
    (p.makeHeader last seqNo msgID mac).1 = Io.makeHeader last seqNo p.content.length msgID ∧
      (p.makeHeader last seqNo msgID mac).2.content = p.content := by
  constructor
  · rw [length_content,Int.toNat_of_nonneg hlen]
    rfl
  · rw [content_makeHeader hp (by simp [Keys.none]) hlen]
    rfl

theorem retval_nonneg_of_cons {d : List Byte} {s : Sent} (h : 0 ≤ (s.cons d).retval) :
    0 ≤ s.retval := by
  by_contra hneg
  have hsame : (s.cons d).retval = s.retval := if_pos (by omega)
  omega

private theorem sendLong_spec {init : List CondorPacket} {last : CondorPacket}
    (hinit : ∀ p ∈ init, p.Names Keys.none ∧ p.length = usablePacketSize)
    (hlast : last.Names Keys.none) (hlen : 0 ≤ last.length) (msgID : MsgID) (sendto : Nat → Bool)
    (seqNo : Nat) (md : Option Mac) :
    (∃ q, (sendLong msgID sendto seqNo md init last).2 = ⟨[],q⟩ ∧ q.Held Keys.none) ∧
      (0 ≤ (sendLong msgID sendto seqNo md init last).1.retval →
        (sendLong msgID sendto seqNo md init last).1.datagrams =
          longDatagrams msgID seqNo ((init ++ [last]).map CondorPacket.content)) := by
  have hproper : Keys.none.Proper := ⟨nofun,nofun,by simp [Keys.none]⟩
  induction init generalizing seqNo md with
  | nil =>
    refine ⟨⟨_,rfl,held_reset (makeHeader_names hlast _ _ _ _) hproper⟩,fun _ => ?_⟩
    have hplain := makeHeader_plain hlast hlen true seqNo msgID md
    show [(last.makeHeader true seqNo msgID md).1 ++
      (last.makeHeader true seqNo msgID md).2.content] = _
    rw [hplain.1,hplain.2]
    rfl
  | cons p init ih =>
    obtain ⟨hp,hplen⟩ := hinit p mem_cons_self
    have hplain := makeHeader_plain hp (by rw [hplen]; exact Int.natCast_nonneg _) false seqNo
      msgID md
    obtain ⟨⟨q,hq,hheld⟩,hdatagrams⟩ := ih (fun p' hp' => hinit p' (mem_cons_of_mem _ hp'))
      (seqNo + 1) none
    rw [sendLong]
    by_cases hsent : sendto seqNo = true
    · rw [if_pos hsent]
      refine ⟨⟨q,hq,hheld⟩,fun hret => ?_⟩
      have hrest := retval_nonneg_of_cons hret
      show _ :: (sendLong msgID sendto (seqNo + 1) none init last).1.datagrams = _
      rw [hdatagrams hrest,hplain.1,hplain.2]
      have hempty : (init ++ [last]).map CondorPacket.content ≠ [] := by simp
      cases hmore : (init ++ [last]).map CondorPacket.content with
      | nil => exact absurd hmore hempty
      | cons d more =>
        rw [cons_append,map_cons,hmore,longDatagrams]
        rfl
    · rw [if_neg hsent]
      have hfailed : ¬ (0 : Int) ≤ -1 := by decide
      refine ⟨⟨last.reset,?_,held_reset hlast hproper⟩,fun hret => absurd hret hfailed⟩
      have hnames := makeHeader_names hp false seqNo msgID md
      have hhead : (p.makeHeader false seqNo msgID md).2.empty = false := by
        rw [Bool.eq_false_iff,ne_eq,empty_iff hnames hproper]
        show ¬ p.length = _
        rw [hplen]
        decide
      show clearMsg _ = _
      rw [clearMsg,headPacket,headD_cons,hhead]
      rfl

private theorem plain_empty (hn : m.headPacket.Names k) (hk : k.Proper)
    (hlen : 0 ≤ m.headPacket.length) : (plain k m).empty = m.headPacket.empty := by
  have hhead : (((plain k m).packets ++ [(plain k m).last]).headD []).length =
      m.headPacket.length.toNat := by
    rw [← length_content,headPacket,plain]
    cases m.init <;> rfl
  have hroom := hk.room
  have hids : ∀ id : CString, (bytes id).length = id.length := fun id => length_map _
  rw [Bool.eq_iff_iff,empty_iff hn hk,OutMsg.empty,hhead,beq_iff_eq,plain,Keys.ids]
  obtain ⟨md,enc⟩ := k
  cases md <;> cases enc <;>
    simp [Keys.space,Keys.mdRoom,Keys.encRoom,hids] at hroom ⊢ <;> (try split) <;> omega

/-- What is sent, which is what the message of fixed keys sends. -/
theorem sendMsg_spec {payload : List Byte} (h : Filling k m payload)
    (hk : k.Proper) (hfits : k ≠ Keys.none → k.space + payload.length ≤ usablePacketSize)
    {mac : Option Mac} (hmac : k.md.isSome → mac.isSome) (msgID : MsgID) (sendto : Nat → Bool) :
    (∃ p, (m.sendMsg msgID mac sendto).2 = ⟨[],p⟩ ∧ p.Held k) ∧
      NamesKeys k mac msgID payload (m.sendMsg msgID mac sendto).1 ∧
      (0 ≤ (m.sendMsg msgID mac sendto).1.retval → (m.sendMsg msgID mac sendto).1.datagrams =
        (plain k m).sendMsg msgID (mac.map Subtype.val)) := by
  have hspace : k.space ≤ (m.packets.flatMap CondorPacket.content).length := by
    rw [h.total]
    omega
  have htotal := h.total
  have hle := h.le
  have hnonneg := h.nonneg
  have hu : usablePacketSize = 975 := rfl
  by_cases hinit : m.init = []
  · have hlast : m.last.Names k := by
      have hhead := h.head
      rw [headPacket,hinit] at hhead
      exact hhead
    have hpackets : m.packets.flatMap CondorPacket.content = m.last.content := by
      rw [packets,hinit,nil_append,flatMap_singleton]
    have hcontent : m.last.content.drop k.space = payload := hpackets ▸ h.content
    rw [hpackets,length_content] at htotal
    have hheadPacket : m.headPacket = m.last := by rw [headPacket,hinit]; rfl
    have hplain := plain_empty h.head hk (hheadPacket ▸ hnonneg)
    rw [hheadPacket] at hplain
    rw [sendMsg,hheadPacket,OutMsg.sendMsg,hplain]
    by_cases hempty : m.last.empty = true
    · have hlen := (empty_iff hlast hk).mp hempty
      have hnil : payload = [] := List.length_eq_zero_iff.mp (by omega)
      have hm : m = ⟨[],m.last⟩ := by rw [← hinit]
      rw [if_pos hempty]
      refine ⟨⟨m.last,hm,⟨hlast,h.curIndex.trans hlen,hlen⟩⟩,fun _ => ?_,fun _ => ?_⟩
      · rw [if_pos hnil]
      · rw [if_pos hempty]
    · have hne : payload ≠ [] := by
        rintro rfl
        refine hempty ((empty_iff hlast hk).mpr ?_)
        simp only [length_nil] at htotal
        omega
      rw [if_neg hempty,if_neg hempty,if_pos hinit,plain,hinit]
      have hsent := content_makeHeader hlast hmac (by omega) true 0 msgID
      refine ⟨⟨_,rfl,held_reset (makeHeader_names hlast _ _ _ _) hk⟩,fun _ => ?_,fun _ => ?_⟩
      · rw [if_neg hne]
        exact .inl (congrArg (fun d => [d]) (hsent.trans (by rw [hcontent])))
      · show [(m.last.makeHeader true 0 msgID mac).2.content] = [overwrite _ _]
        rw [hsent,overwrite,length_secHeader_ids hmac]
  · -- more than one packet: there are no keys
    have hbig : usablePacketSize < (m.packets.flatMap CondorPacket.content).length := by
      obtain ⟨p,init,hcons⟩ := exists_cons_of_ne_nil hinit
      have hp := h.full p (by rw [hcons]; exact mem_cons_self)
      have hstarted := h.started hinit
      rw [packets,hcons,cons_append,flatMap_cons,flatMap_append,
        flatMap_singleton,length_append,length_append,length_content,length_content,hp]
      omega
    have hnone : k = Keys.none := by
      by_contra hne
      have hfit := hfits hne
      omega
    subst hnone
    have hhead := h.head
    have htail := h.tail
    obtain ⟨p,init,hcons⟩ := exists_cons_of_ne_nil hinit
    rw [headPacket,hcons,headD_cons] at hhead
    rw [packets,hcons,cons_append,tail_cons] at htail
    have hnames : ∀ q ∈ m.init, q.Names Keys.none ∧ q.length = usablePacketSize := by
      intro q hq
      refine ⟨?_,h.full q hq⟩
      rw [hcons] at hq
      rcases List.mem_cons.mp hq with rfl | hq
      · exact hhead
      · exact htail q (mem_append_left _ hq)
    have hlast : m.last.Names Keys.none :=
      htail m.last (mem_append_right _ (mem_singleton_self _))
    have hplen := h.full p (by rw [hcons]; exact mem_cons_self)
    have hempty : m.headPacket.empty = false := by
      rw [headPacket,hcons,headD_cons,Bool.eq_false_iff,ne_eq,empty_iff hhead hk,hplen]
      decide
    have hplain := plain_empty h.head hk (by rw [headPacket,hcons,headD_cons,hplen]; omega)
    rw [sendMsg,hempty,if_neg (by decide),if_neg hinit]
    obtain ⟨hstate,hdatagrams⟩ := sendLong_spec hnames hlast h.nonneg msgID sendto 0 mac
    refine ⟨hstate,fun hret => ?_,fun hret => ?_⟩
    swap
    · rw [hdatagrams hret,OutMsg.sendMsg,hplain,hempty,plain,hcons,map_append]
      rfl
    have hne : payload ≠ [] := by
      rintro rfl
      have hzero : Keys.none.space = 0 := rfl
      simp only [length_nil] at htotal
      omega
    rw [if_neg hne]
    refine .inr ⟨_,hdatagrams hret,?_⟩
    have hcontent := h.content
    rw [flatMap_def] at hcontent
    exact hcontent

end CondorOutMsg

inductive Action where
  | setEncryptionId (keyId : Option CString)
  | initMD (keyId : Option CString)
  | send (puts : List (List Byte)) (mac : Option Mac) (msgID : MsgID) (sendto : Nat → Bool)

structure Record where
  keys : Keys
  mac : Option Mac
  msgID : MsgID
  payload : List Byte
  sent : CondorOutMsg.Sent

structure Talk where
  msg : CondorOutMsg
  keys : Keys
  records : List Record

namespace Talk

def new : Talk := ⟨.new,.none,[]⟩

def step (t : Talk) : Action → Option Talk
  | .setEncryptionId keyId => (t.msg.setEncryptionId keyId).map fun r =>
    { t with msg := r.2,keys := { t.keys with enc := keyId } }
  | .initMD keyId => (t.msg.initMD keyId).map fun r =>
    { t with msg := r.2,keys := { t.keys with md := keyId } }
  | .send puts mac msgID sendto => (t.msg.putAll puts).map fun m =>
    { t with
      msg := (m.sendMsg msgID mac sendto).2
      records := t.records ++ [⟨t.keys,mac,msgID,puts.flatten,(m.sendMsg msgID mac sendto).1⟩] }

/-- The keys fit; a message under keys fits into a packet; and a digest is given where its key is
set. -/
def Admits (t : Talk) : Action → Prop
  | .setEncryptionId keyId => Keys.Proper { t.keys with enc := keyId }
  | .initMD keyId => Keys.Proper { t.keys with md := keyId }
  | .send puts mac _ _ =>
    (t.keys ≠ Keys.none → t.keys.space + puts.flatten.length ≤ usablePacketSize) ∧
      (t.keys.md.isSome → mac.isSome)

/-- The head packet is empty, with the last keys and room for their header, and every message has
named the keys of its time. -/
structure Persists (t : Talk) : Prop where
  single : t.msg.init = []
  empty : t.msg.headPacket.empty = true
  names : t.msg.headPacket.Names t.keys
  room : t.msg.headPacket.curIndex = t.keys.space ∧ t.msg.headPacket.length = t.keys.space
  records : ∀ r ∈ t.records, CondorOutMsg.NamesKeys r.keys r.mac r.msgID r.payload r.sent

structure Inv (t : Talk) : Prop where
  held : ∃ p, t.msg = ⟨[],p⟩ ∧ p.Held t.keys
  proper : t.keys.Proper
  records : ∀ r ∈ t.records, CondorOutMsg.NamesKeys r.keys r.mac r.msgID r.payload r.sent

private theorem inv_new : new.Inv :=
  ⟨⟨_,rfl,CondorPacket.held_new⟩,⟨nofun,nofun,by simp [new,Keys.none]⟩,
    fun _ hr => absurd hr not_mem_nil⟩

private theorem Inv.persists {t : Talk} (h : t.Inv) : t.Persists := by
  obtain ⟨p,hp,hheld⟩ := h.held
  have hhead : t.msg.headPacket = p := by rw [hp]; rfl
  constructor
  case single => rw [hp]
  case empty => exact hhead ▸ (CondorPacket.empty_iff hheld.toNames h.proper).mpr hheld.length
  case names => exact hhead ▸ hheld.toNames
  case room => exact hhead ▸ ⟨hheld.curIndex,hheld.length⟩
  case records => exact h.records

private theorem step_inv {t : Talk} {a : Action} (h : t.Inv) (ha : t.Admits a) :
    ∃ t', t.step a = some t' ∧ t'.Inv := by
  obtain ⟨p,hp,hheld⟩ := h.held
  have hempty : (⟨[],p⟩ : CondorOutMsg).headPacket.empty = true :=
    (CondorPacket.empty_iff hheld.toNames h.proper).mpr hheld.length
  have hopen : ¬ ((⟨[],p⟩ : CondorOutMsg).init ≠ [] ∨
      (⟨[],p⟩ : CondorOutMsg).headPacket.empty = false) := by
    rw [hempty]
    simp
  cases a with
  | setEncryptionId keyId =>
    obtain ⟨p',hp',hheld'⟩ := CondorPacket.setEncryptionId_held hheld h.proper ha
    refine ⟨{ t with msg := ⟨[],p'⟩,keys := { t.keys with enc := keyId } },?_,
      ⟨p',rfl,hheld'⟩,ha,h.records⟩
    rw [step,hp,CondorOutMsg.setEncryptionId,if_neg hopen,hp']
    rfl
  | initMD keyId =>
    obtain ⟨p',hp',hheld'⟩ := CondorPacket.initMD_held hheld h.proper ha
    refine ⟨{ t with msg := ⟨[],p'⟩,keys := { t.keys with md := keyId } },?_,
      ⟨p',rfl,hheld'⟩,ha,h.records⟩
    rw [step,hp,CondorOutMsg.initMD,if_neg hopen,hp']
    rfl
  | send puts mac msgID sendto =>
    have hle : t.keys.space ≤ usablePacketSize := by
      by_cases hnone : t.keys = Keys.none
      · rw [hnone]
        decide
      · have := ha.1 hnone
        omega
    obtain ⟨m,hm,hfill⟩ :=
      CondorOutMsg.putAll_filling puts (CondorOutMsg.filling_held hheld hle)
    rw [nil_append] at hfill
    obtain ⟨⟨q,hq,hheld'⟩,hnames,-⟩ :=
      CondorOutMsg.sendMsg_spec hfill h.proper ha.1 ha.2 msgID sendto
    refine ⟨{ t with
      msg := (m.sendMsg msgID mac sendto).2
      records := t.records ++ [⟨t.keys,mac,msgID,puts.flatten,(m.sendMsg msgID mac sendto).1⟩] },
      ?_,⟨q,hq,hheld'⟩,h.proper,?_⟩
    · rw [step,hp,hm]
      rfl
    · intro r hr
      rcases List.mem_append.mp hr with hr | hr
      · exact h.records r hr
      · rw [List.mem_singleton.mp hr]
        exact hnames

/-- In every run whose steps are all admitted the security headers persist, in every state. -/
theorem headers_persist (as : List Action) (h : Along step Admits new as) :
    ∃ t, run step new as = some t ∧ t.Persists := by
  obtain ⟨t,ht,hinv⟩ := run_total Inv (fun _ _ => step_inv) h inv_new
  exact ⟨t,ht,hinv.persists⟩

def encrypted (payload : List Byte) : List Action :=
  [.setEncryptionId (some (cstr "k")),.send [payload] none ⟨0,0,0,0⟩ fun _ => true]

theorem headers_persist_short :
    ∃ t, run step new (encrypted [1,2,3]) = some t ∧ t.Persists := by
  refine headers_persist _ (Along.cons ⟨nofun,?_,?_⟩ rfl (Along.cons ⟨fun _ => ?_,?_⟩ rfl trivial))
  · intro id hid
    rw [← some.inj hid]
    decide
  · intro _
    decide
  · decide
  · nofun

def rooms (t : Talk) : Int × Nat := (t.msg.headPacket.curIndex,t.keys.space)

/-- A message that takes two packets loses the key. -/
theorem long_message_loses_key :
    ¬ ∀ as : List Action, ∃ t, run step new as = some t ∧ t.Persists := by
  intro hall
  obtain ⟨t,ht,hpersists⟩ := hall (encrypted (List.replicate 1000 7))
  have hlost : (run step new (encrypted (List.replicate 1000 7))).map rooms = some (0,11) := by
    decide +kernel
  have hrooms : rooms t = (0,11) :=
    some.inj ((congrArg (Option.map rooms) ht).symm.trans hlost)
  have hzero : t.msg.headPacket.curIndex = 0 := congrArg Prod.fst hrooms
  have hspace : t.keys.space = 11 := congrArg Prod.snd hrooms
  have hroom := hpersists.room.1
  rw [hzero,hspace] at hroom
  exact absurd hroom (by decide)

end Talk

end Condor.Io
