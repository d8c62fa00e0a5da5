import Condor.Io.ReliSock

/-!
# Messages in datagrams

A message is put into packets of at most `usablePacketSize` bytes. A message of one packet is sent
as it is, those of more packets with a header before each.
-/

namespace Condor.Io

open Function

def safeMsgHeaderSize : Nat := 25

def safeMsgFragmentSize : Nat := 1000

def usablePacketSize : Nat := safeMsgFragmentSize - safeMsgHeaderSize

def safeMsgMaxPacketSize : Nat := 60000

def safeMsgCryptoHeaderSize : Nat := 10

def safeMsgNoOfDirEntry : Nat := 41

def macSize : Nat := 16

def safeMsgMagic : List Byte := [77,97,71,105,99,54,46,48]

def cryptoTag : List Byte := [67,82,65,80]

structure MsgID where
  ipAddr : Int
  pid : Int
  time : Int
  msgNo : Int
  deriving DecidableEq

def MsgID.wire (id : MsgID) : MsgID :=
  ⟨id.ipAddr % 2^32,id.pid % 2^16,id.time % 2^32,id.msgNo % 2^16⟩

def htons (v : Int) : List Byte :=
  let n := (v % 2^16).toNat
  [UInt8.ofNat (n / 2^8),UInt8.ofNat n]

structure KeyIds where
  md : Option (List Byte)
  enc : Option (List Byte)

def KeyIds.none : KeyIds := ⟨.none,.none⟩

/-- What `init_MD` and `set_encryption_id` leave free at the beginning of the first packet. -/
def KeyIds.space (k : KeyIds) : Nat :=
  (if k.md.isSome || k.enc.isSome then safeMsgCryptoHeaderSize else 0) +
    (k.md.elim 0 fun id => macSize + id.length) + k.enc.elim 0 List.length

/-- An outgoing message with fixed keys; `CondorOutMsg` has them change between messages. -/
structure OutMsg where
  keys : KeyIds
  packets : List (List Byte)
  last : List Byte

namespace OutMsg

def new (keys : KeyIds) : OutMsg := ⟨keys,[],List.replicate keys.space 0⟩

def putn : Nat → OutMsg → List Byte → Option OutMsg
  | _, m, [] => some m
  | 0, _, _ :: _ => none
  | fuel + 1, m, data =>
    let m := if m.last.length = usablePacketSize then
      { m with packets := m.packets ++ [m.last], last := [] } else m
    let left := usablePacketSize - m.last.length
    putn fuel { m with last := m.last ++ data.take left } (data.drop left)

def putAll : OutMsg → List (List Byte) → Option OutMsg
  | m, [] => some m
  | m, data :: more => (m.putn (data.length + 1) data).bind fun m' => putAll m' more

def empty (m : OutMsg) : Bool :=
  let forward := (m.keys.md.elim 0 fun id => macSize + id.length) + m.keys.enc.elim 0 List.length
  ((m.packets ++ [m.last]).headD []).length ==
    if forward > 0 then forward + safeMsgCryptoHeaderSize else 0

end OutMsg

def secHeader (k : KeyIds) (mac : Option (List Byte)) : List Byte :=
  if k.md.isSome || k.enc.isSome then
    cryptoTag ++ htons ((if k.md.isSome then 1 else 0) + if k.enc.isSome then 2 else 0) ++
      htons (k.md.elim 0 List.length : Nat) ++ htons (k.enc.elim 0 List.length : Nat) ++
      (match mac,k.md with
        | some mac,some id => id ++ mac
        | _,_ => []) ++ k.enc.getD []
  else []

def makeHeader (last : Bool) (seqNo : Int) (length : Int) (id : MsgID) : List Byte :=
  safeMsgMagic ++ [if last then 1 else 0] ++ htons seqNo ++ htons length ++ htonl id.ipAddr ++
    htons id.pid ++ htonl id.time ++ htons id.msgNo

def overwrite (header data : List Byte) : List Byte := header ++ data.drop header.length

/-- The datagrams of packets that are numbered from `seqNo` on. -/
def longDatagrams (id : MsgID) : Nat → List (List Byte) → List (List Byte)
  | _, [] => []
  | seqNo, data :: more =>
    (makeHeader more.isEmpty seqNo data.length id ++ data) :: longDatagrams id (seqNo + 1) more

def OutMsg.sendMsg (m : OutMsg) (id : MsgID) (mac : Option (List Byte)) : List (List Byte) :=
  if m.empty then []
  else
    match m.packets with
    | [] => [overwrite (secHeader m.keys mac) m.last]
    | head :: packets =>
      longDatagrams id 0 (overwrite (secHeader m.keys mac) head :: (packets ++ [m.last]))

structure Sec where
  md5KeyId : Option (List Byte)
  md : Option (List Byte)
  encKeyId : Option (List Byte)

def Sec.none : Sec := ⟨.none,.none,.none⟩

def u16At (buf : List Byte) (i : Nat) : Nat :=
  (buf.getD i 0).toNat * 2^8 + (buf.getD (i + 1) 0).toNat

def u32At (buf : List Byte) (i : Nat) : Nat := u16At buf i * 2^16 + u16At buf (i + 2)

def bytesAt (buf : List Byte) (i n : Nat) : List Byte := (buf.drop i).take n

structure Located where
  data : Nat
  len : Int
  sec : Sec

/-- `checkHeader`. The lengths of the keys are signed numbers of 16 bits. -/
def checkHeader (buf : List Byte) (data : Nat) (len : Int) : Located :=
  if bytesAt buf data 4 = cryptoTag then
    let flags := u16At buf (data + 4)
    let mdKeyIdLen : Int := Int.bmod (u16At buf (data + 6)) (2^16)
    let encKeyIdLen : Int := Int.bmod (u16At buf (data + 8)) (2^16)
    let data := data + safeMsgCryptoHeaderSize
    let len := len - safeMsgCryptoHeaderSize
    let withMd : Located :=
      if flags % 2 = 1 ∧ mdKeyIdLen > 0 then
        ⟨data + mdKeyIdLen.toNat + macSize,len - mdKeyIdLen - macSize,
          ⟨some (bytesAt buf data mdKeyIdLen.toNat),
            some (bytesAt buf (data + mdKeyIdLen.toNat) macSize),.none⟩⟩
      else ⟨data,len,.none⟩
    if flags / 2 % 2 = 1 ∧ encKeyIdLen > 0 then
      ⟨withMd.data + encKeyIdLen.toNat,withMd.len - encKeyIdLen,
        { withMd.sec with encKeyId := some (bytesAt buf withMd.data encKeyIdLen.toNat) }⟩
    else withMd
  else ⟨data,len,.none⟩

/-- What `getHeader` makes of a datagram: a whole message, or a fragment of one. -/
inductive Header
  | whole (loc : Located)
  | fragment (last : Bool) (seq : Nat) (mID : MsgID) (loc : Located)

def getHeader (buf : List Byte) (received : Nat) : Header :=
  if bytesAt buf 0 8 = safeMsgMagic then
    .fragment (buf.getD 8 0 != 0) (u16At buf 9)
      ⟨u32At buf 13,u16At buf 17,u32At buf 19,u16At buf 23⟩ (checkHeader buf 25 (u16At buf 11))
  else .whole (checkHeader buf 0 received)

def Header.loc : Header → Located
  | .whole loc => loc
  | .fragment _ _ _ loc => loc

structure DEntry where
  dLen : Nat
  dGram : Option (List Byte)

structure InMsg where
  msgID : MsgID
  msgLen : Nat
  lastNo : Nat
  received : Nat
  lastTime : Int
  passed : Nat
  dEntry : Nat → DEntry
  headDir : Nat
  dirs : Nat
  curDir : Nat
  curPacket : Nat
  curData : Nat
  sec : Sec

namespace InMsg

def new (mID : MsgID) (last : Bool) (seq : Nat) (data : List Byte) (sec : Sec) (now : Int) :
    InMsg where
  msgID := mID
  msgLen := data.length
  lastNo := if last then seq else 0
  received := 1
  lastTime := now
  passed := 0
  dEntry := update (fun _ => ⟨0,none⟩) seq ⟨data.length,some data⟩
  headDir := 0
  dirs := seq / safeMsgNoOfDirEntry + 1
  curDir := seq / safeMsgNoOfDirEntry
  curPacket := 0
  curData := 0
  sec := sec

def addPacket (x : InMsg) (last : Bool) (seq : Nat) (data : List Byte) (now : Int) : Bool × InMsg :=
  if x.lastNo ≠ 0 ∧ x.lastNo + 1 = x.received then (false,x)
  else
    -- pages are made up to the one of the packet
    let x := { x with
      curDir := seq / safeMsgNoOfDirEntry
      dirs := max x.dirs (seq / safeMsgNoOfDirEntry + 1) }
    if (x.dEntry seq).dLen = 0 then
      let x := { x with
        dEntry := update x.dEntry seq ⟨data.length,some data⟩
        msgLen := x.msgLen + data.length
        lastNo := if last then seq else x.lastNo
        received := x.received + 1 }
      if x.lastNo + 1 = x.received then
        (true,{ x with curDir := x.headDir, curPacket := 0, curData := 0 })
      else (false,{ x with lastTime := now })
    else (false,x)

def cur (x : InMsg) : Nat := safeMsgNoOfDirEntry * x.curDir + x.curPacket

def incrementCurData (x : InMsg) (n : Nat) : InMsg :=
  let x := { x with curData := x.curData + n, passed := x.passed + n }
  if x.curData = (x.dEntry x.cur).dLen then
    let x := { x with
      dEntry := update x.dEntry x.cur ⟨(x.dEntry x.cur).dLen,none⟩
      curPacket := x.curPacket + 1
      curData := 0 }
    if x.curPacket = safeMsgNoOfDirEntry then
      { x with headDir := x.headDir + 1, curDir := x.headDir + 1, curPacket := 0 }
    else x
  else x

/-- The loop of `getn`. -/
def getLoop : Nat → InMsg → Nat → Option (List Byte × InMsg)
  | _, x, 0 => some ([],x)
  | 0, _, _ + 1 => none
  | fuel + 1, x, size =>
    let e := x.dEntry x.cur
    let len := min size (e.dLen - x.curData)
    if x.curDir < x.dirs ∧ (e.dGram = none → len = 0) then
      (getLoop fuel (x.incrementCurData len) (size - len)).map fun r =>
        (((e.dGram.getD []).drop x.curData).take len ++ r.1,r.2)
    else none

def getn (x : InMsg) (size : Nat) : Option (Got × InMsg) :=
  if x.passed + size > x.msgLen then some (⟨-1,[]⟩,x)
  else (getLoop size x size).map fun r => (Got.ofBytes r.1,r.2)

/-- The search of `getPtr` from a position on: the number of bytes up to the delimiter. -/
def search (x : InMsg) (delim : Byte) : Nat → Nat → Nat → Nat → Option (Option Nat)
  | 0, _, _, _ => none
  | fuel + 1, k, tempData, n =>
    let e := x.dEntry k
    if e.dGram = none ∧ e.dLen ≠ tempData then none
    else
      match ((e.dGram.getD []).drop tempData).idxOf? delim with
      | some i => some (some (n + i))
      | none =>
        if (k + 1) % safeMsgNoOfDirEntry = 0 then
          if (k + 1) / safeMsgNoOfDirEntry < x.dirs then
            search x delim fuel (k + 1) 0 (n + (e.dLen - tempData))
          else some none
        else if (x.dEntry (k + 1)).dGram = none then some none
        else search x delim fuel (k + 1) 0 (n + (e.dLen - tempData))

/-- A delimiter before the last byte of the current page is returned in place, else the bytes are
copied. -/
def getPtr (x : InMsg) (delim : Byte) : Option (Got × InMsg) :=
  if x.curDir < x.dirs then
    let e := x.dEntry x.cur
    match ((e.dGram.getD []).drop x.curData).idxOf? delim with
    | some i =>
      if i + 1 = e.dLen - x.curData then x.getn (i + 1)
      else some (Got.ofBytes (((e.dGram.getD []).drop x.curData).take (i + 1)),
        x.incrementCurData (i + 1))
    | none =>
      match x.search delim (safeMsgNoOfDirEntry * x.dirs + 1) x.cur x.curData 1 with
      | none => none
      | some none => some (⟨-1,[]⟩,x)
      | some (some n) => x.getn n
  else none

def peek (x : InMsg) : Option (Got × InMsg) :=
  if x.curDir < x.dirs then
    (x.dEntry x.cur).dGram.bind fun g => g[x.curData]?.map fun c => (⟨1,[c]⟩,x)
  else none

def consumed (x : InMsg) : Bool := x.msgLen != 0 && x.msgLen == x.passed

end InMsg

end Condor.Io
