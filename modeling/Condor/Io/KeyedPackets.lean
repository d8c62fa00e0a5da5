import Condor.Io.SafeMsg
import Condor.Lib.Run

/-!
# Key ids in the packets of a message

The ids of the keys for the digest and for encryption are kept in a packet, which leaves room at
its beginning for the security header that names them.
-/

namespace Condor.Io

open Lib

abbrev Mac := {l : List Byte // l.length = macSize}

/-- A number as a `short`. -/
def toShort (n : Nat) : Int := Int.bmod n (2^16)

/-- `_condorPacket` of an outgoing message. The data stand in `data` up to `length`. -/
structure CondorPacket where
  length : Int
  data : Nat → Byte
  curIndex : Int
  outgoingMD5KeyId : Option CString
  outgoingMdLen : Int
  outgoingEncKeyId : Option CString
  outgoingEidLen : Int

namespace CondorPacket

/-- The array of a new packet is not initialised; nothing reads what has not been written. -/
def new : CondorPacket := ⟨0,fun _ => 0,0,none,0,none,0⟩

def forward (p : CondorPacket) : Int :=
  let forward := (if p.outgoingMD5KeyId.isSome then macSize + p.outgoingMdLen else 0) +
    if p.outgoingEncKeyId.isSome then p.outgoingEidLen else 0
  if forward > 0 then forward + safeMsgCryptoHeaderSize else forward

def empty (p : CondorPacket) : Bool := p.length == p.forward

def full (p : CondorPacket) : Bool := p.curIndex == usablePacketSize

def reset (p : CondorPacket) : CondorPacket := { p with curIndex := p.forward, length := p.forward }

def withoutKey (curIndex size : Int) : Int :=
  if curIndex > 0 then
    if curIndex - size = safeMsgCryptoHeaderSize then curIndex - size - safeMsgCryptoHeaderSize
    else curIndex - size
  else curIndex

def withKey (curIndex size : Int) : Int :=
  (if curIndex = 0 then curIndex + safeMsgCryptoHeaderSize else curIndex) + size

/-- None is a failed assertion: that the packet is empty, or that the index is not negative. -/
def setEncryptionId (p : CondorPacket) (keyId : Option CString) : Option CondorPacket :=
  if p.empty then
    let cur := if p.outgoingEncKeyId.isSome then withoutKey p.curIndex p.outgoingEidLen
      else p.curIndex
    if p.outgoingEncKeyId.isSome ∧ p.curIndex > 0 ∧ cur < 0 then none
    else
      match keyId with
      | none =>
        some { p with
          outgoingEncKeyId := none
          outgoingEidLen := 0
          curIndex := cur
          length := cur }
      | some id =>
        some { p with
          outgoingEncKeyId := some id
          outgoingEidLen := toShort id.length
          curIndex := withKey cur (toShort id.length)
          length := withKey cur (toShort id.length) }
  else none

def initMD (p : CondorPacket) (keyId : Option CString) : Option CondorPacket :=
  if p.empty then
    let cur := if p.outgoingMD5KeyId.isSome then withoutKey p.curIndex (macSize + p.outgoingMdLen)
      else p.curIndex
    if p.outgoingMD5KeyId.isSome ∧ p.curIndex > 0 ∧ cur < 0 then none
    else
      match keyId with
      | none =>
        some { p with
          outgoingMD5KeyId := none
          outgoingMdLen := 0
          curIndex := cur
          length := cur }
      | some id =>
        some { p with
          outgoingMD5KeyId := some id
          outgoingMdLen := toShort id.length
          curIndex := withKey cur (macSize + toShort id.length)
          length := withKey cur (macSize + toShort id.length) }
  else none

def write (data : Nat → Byte) (i : Nat) (bytes : List Byte) : Nat → Byte :=
  fun j => if i ≤ j ∧ j < i + bytes.length then bytes.getD (j - i) 0 else data j

def putMax (p : CondorPacket) (dta : List Byte) : Option (CondorPacket × Nat) :=
  let left := usablePacketSize - p.curIndex
  let len := if dta.length > left then left else dta.length
  if len < 0 ∨ p.curIndex < 0 then none
  else
    some ({ p with
      data := write p.data p.curIndex.toNat (dta.take len.toNat)
      curIndex := p.curIndex + len
      length := p.curIndex + len },len.toNat)

/-- `addExtendedHeader`: the id of the digest's key and the digest, if there is one, and the id of
the other key. -/
def extendedHeader (p : CondorPacket) (mac : Option Mac) : List Byte :=
  (match mac,p.outgoingMD5KeyId with
    | some mac,some id => (bytes id).take p.outgoingMdLen.toNat ++ mac.val
    | _,_ => []) ++
  match p.outgoingEncKeyId with
    | some id => (bytes id).take p.outgoingEidLen.toNat
    | none => []

/-- What `makeHeader` writes into the data. -/
def cryptoHeader (p : CondorPacket) (mac : Option Mac) : List Byte :=
  if p.outgoingMD5KeyId.isSome || p.outgoingEncKeyId.isSome then
    cryptoTag ++ htons ((if p.outgoingMD5KeyId.isSome then 1 else 0) +
      if p.outgoingEncKeyId.isSome then 2 else 0) ++
      htons p.outgoingMdLen ++ htons p.outgoingEidLen ++ p.extendedHeader mac
  else []

def makeHeader (p : CondorPacket) (last : Bool) (seqNo : Nat) (msgID : MsgID) (mac : Option Mac) :
    List Byte × CondorPacket :=
  (Io.makeHeader last seqNo p.length msgID,{ p with data := write p.data 0 (p.cryptoHeader mac) })

def content (p : CondorPacket) : List Byte := (List.range p.length.toNat).map p.data

end CondorPacket

/-- `_condorOutMsg`: the last packet and those before it, of which the first is the head. -/
structure CondorOutMsg where
  init : List CondorPacket
  last : CondorPacket

namespace CondorOutMsg

def new : CondorOutMsg := ⟨[],.new⟩

def headPacket (m : CondorOutMsg) : CondorPacket := m.init.headD m.last

def setEncryptionId (m : CondorOutMsg) (keyId : Option CString) : Option (Bool × CondorOutMsg) :=
  if m.init ≠ [] ∨ m.headPacket.empty = false then some (false,m)
  else (m.last.setEncryptionId keyId).map fun p => (true,⟨[],p⟩)

def initMD (m : CondorOutMsg) (keyId : Option CString) : Option (Bool × CondorOutMsg) :=
  if m.init ≠ [] ∨ m.headPacket.empty = false then some (false,m)
  else (m.last.initMD keyId).map fun p => (true,⟨[],p⟩)

/-- The loop of `putn`. -/
def putn : Nat → CondorOutMsg → List Byte → Option CondorOutMsg
  | _, m, [] => some m
  | 0, _, _ :: _ => none
  | fuel + 1, m, dta =>
    let m := if m.last.full then ⟨m.init ++ [m.last],.new⟩ else m
    (m.last.putMax dta).bind fun r => putn fuel ⟨m.init,r.1⟩ (dta.drop r.2)

def putAll : CondorOutMsg → List (List Byte) → Option CondorOutMsg
  | m, [] => some m
  | m, dta :: more => (m.putn (dta.length + 1) dta).bind fun m' => putAll m' more

def clearMsg (m : CondorOutMsg) : CondorOutMsg :=
  if m.headPacket.empty then m else ⟨[],m.last.reset⟩

/-- What `sendMsg` returns, and the datagrams that it gave to `sendto`. -/
structure Sent where
  retval : Int
  datagrams : List (List Byte)

def Sent.cons (datagram : List Byte) (s : Sent) : Sent :=
  ⟨if s.retval < 0 then s.retval else datagram.length + s.retval,datagram :: s.datagrams⟩

/-- The packets of a long message, numbered from `seqNo` on. -/
def sendLong (msgID : MsgID) (sendto : Nat → Bool) :
    Nat → Option Mac → List CondorPacket → CondorPacket → Sent × CondorOutMsg
  | seqNo, md, [], last =>
    let h := last.makeHeader true seqNo msgID md
    (⟨if sendto seqNo then (h.1 ++ h.2.content).length else -1,[h.1 ++ h.2.content]⟩,
      ⟨[],h.2.reset⟩)
  | seqNo, md, p :: init, last =>
    let h := p.makeHeader false seqNo msgID md
    if sendto seqNo then
      let r := sendLong msgID sendto (seqNo + 1) none init last
      (r.1.cons (h.1 ++ h.2.content),r.2)
    else (⟨-1,[h.1 ++ h.2.content]⟩,clearMsg ⟨h.2 :: init,last⟩)

def sendMsg (m : CondorOutMsg) (msgID : MsgID) (mac : Option Mac) (sendto : Nat → Bool) :
    Sent × CondorOutMsg :=
  if m.headPacket.empty then (⟨0,[]⟩,m)
  else if m.init = [] then
    let h := m.last.makeHeader true 0 msgID mac
    (⟨if sendto 0 then h.2.content.length else -1,[h.2.content]⟩,⟨[],h.2.reset⟩)
  else sendLong msgID sendto 0 mac m.init m.last

end CondorOutMsg

end Condor.Io
