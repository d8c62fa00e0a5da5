import Condor.Io.SafeMsg

/-!
# Sockets for datagrams

A socket keeps the messages of which only some fragments have arrived in a small hash table, and
reads from the message that has become ready last.
-/

namespace Condor.Io

open Function

def safeSockHashBucketSize : Nat := 7

/-- `_shortMsg`, the table of messages, and the message that is ready. -/
structure SafeSock where
  dataGram : List Byte
  data : Nat
  length : Int
  curIndex : Nat
  sec : Sec
  inMsgs : Nat → List InMsg
  longMsg : Option InMsg
  msgReady : Bool
  tOutBtwPkts : Int

namespace SafeSock

/-- A new socket. The buffer for datagrams holds whatever its memory held. -/
def new (dataGram : List Byte) : SafeSock :=
  ⟨dataGram,0,0,0,Sec.none,fun _ => [],none,false,10⟩

def index (id : MsgID) : Nat := (id.ipAddr + id.time + id.msgNo).natAbs % safeSockHashBucketSize

/-- `end_of_message` of a socket that decodes. -/
def endOfMessage (s : SafeSock) : Bool × SafeSock :=
  if s.msgReady then
    match s.longMsg with
    | some x =>
      (x.consumed,{ s with
        inMsgs := update s.inMsgs (index x.msgID)
          ((s.inMsgs (index x.msgID)).eraseP (·.msgID = x.msgID))
        longMsg := none
        msgReady := false })
    | none => (s.curIndex == s.length,{ s with curIndex := 0, length := 0, msgReady := false })
  else (true,s)

def handleFragment (s : SafeSock) (last : Bool) (seq : Nat) (mID : MsgID) (data : List Byte)
    (now : Int) : Bool × SafeSock :=
  let chain := s.inMsgs (index mID)
  let before := (chain.takeWhile (·.msgID ≠ mID)).filter (now - ·.lastTime ≤ s.tOutBtwPkts)
  match chain.dropWhile (·.msgID ≠ mID) with
  | x :: after =>
    let x := if seq = 0 then { x with sec := s.sec } else x
    let r := x.addPacket last seq data now
    let s := { s with inMsgs := update s.inMsgs (index mID) (before ++ r.2 :: after) }
    if r.1 then (true,{ s with longMsg := some r.2, msgReady := true }) else (false,s)
  | [] =>
    let x := InMsg.new mID last seq data s.sec now
    (false,{ s with inMsgs := update s.inMsgs (index mID) (before ++ [x]) })

/-- The bytes that were received before stay behind those of a shorter datagram. -/
def handleIncomingPacket (s : SafeSock) (dgram : List Byte) (now : Int) : Bool × SafeSock :=
  let s := if s.msgReady then s.endOfMessage.2 else s
  let buf := dgram ++ s.dataGram.drop dgram.length
  let header := getHeader buf dgram.length
  let s := { s with
    dataGram := buf
    data := header.loc.data
    length := header.loc.len
    curIndex := 0
    sec := header.loc.sec }
  if header.loc.len ≤ 0 ∨ header.loc.len > safeMsgMaxPacketSize then (false,s)
  else
    match header with
    | .whole _ => (true,{ s with msgReady := true })
    | .fragment last seq mID loc =>
      s.handleFragment last seq mID (bytesAt buf loc.data loc.len.toNat) now

/-- A read from `_shortMsg`. -/
def readShort (s : SafeSock) : Read → Got × SafeSock
  | .bytes size =>
    if s.curIndex + size > s.length then (⟨-1,[]⟩,s)
    else (Got.ofBytes (bytesAt s.dataGram (s.data + s.curIndex) size),
      { s with curIndex := s.curIndex + size })
  | .ptr delim =>
    let left := bytesAt s.dataGram (s.data + s.curIndex) (s.length - s.curIndex).toNat
    match left.idxOf? delim with
    | some i => (Got.ofBytes (left.take (i + 1)),{ s with curIndex := s.curIndex + (i + 1) })
    | none => (⟨-1,[]⟩,s)
  | .peek =>
    if (s.curIndex : Int) = s.length then (⟨0,[]⟩,s)
    else (⟨1,[s.dataGram.getD (s.data + s.curIndex) 0]⟩,s)

def readLong (x : InMsg) : Read → Option (Got × InMsg)
  | .bytes size => x.getn size
  | .ptr delim => x.getPtr delim
  | .peek => x.peek

def read (s : SafeSock) (op : Read) : Option (Got × SafeSock) :=
  match s.longMsg with
  | some x => (readLong x op).map fun r => (r.1,{ s with longMsg := some r.2 })
  | none => some (s.readShort op)

end SafeSock

end Condor.Io
