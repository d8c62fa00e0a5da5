import Condor.Io.Buffers

/-!
# Reliable sockets

A message is sent in packets of at most one buffer: a mark that is nonzero in the last packet, the
length of the payload and the payload.
-/

namespace Condor.Io

def normalHeaderSize : Nat := 5

def htonl (v : Int) : List Byte :=
  let n := (v % 2^32).toNat
  [UInt8.ofNat (n / 2^24),UInt8.ofNat (n / 2^16),UInt8.ofNat (n / 2^8),UInt8.ofNat n]

def ntohl (b0 b1 b2 b3 : Byte) : Int :=
  toInt (b0.toNat * 2^24 + b1.toNat * 2^16 + b2.toNat * 2^8 + b3.toNat : Nat)

structure Got where
  retval : Int
  bytes : List Byte
  deriving DecidableEq

def Got.ofBytes (bytes : List Byte) : Got := ⟨bytes.length,bytes⟩

/-- The ways to read from a message: some bytes, those up to a delimiter, and a look at the next
one. -/
inductive Read
  | bytes (maxSz : Nat)
  | ptr (delim : Byte)
  | peek

/-- The two messages of a socket, and what its peer has sent and will receive. -/
structure ReliSock where
  sndBuf : Buf
  rcvBuf : ChainBuf
  ready : Bool
  ignoreNextEncodeEom : Bool
  ignoreNextDecodeEom : Bool
  allowEmptyMessageFlag : Bool
  incoming : List Byte
  outgoing : List Byte

namespace ReliSock

def new (incoming : List Byte) : ReliSock :=
  ⟨Buf.new,ChainBuf.new,false,false,false,false,incoming,[]⟩

def sndPacket (s : ReliSock) (last : Bool) : ReliSock :=
  let ns : Int := s.sndBuf.dta.length - normalHeaderSize
  let r := s.sndBuf.flush ((if last then 1 else 0) :: htonl ns)
  { s with sndBuf := r.2, outgoing := s.outgoing ++ r.1 }

def prepare (s : ReliSock) : ReliSock :=
  let s := if s.sndBuf.full then s.sndPacket false else s
  if s.sndBuf.empty then { s with sndBuf := s.sndBuf.seek normalHeaderSize } else s

/-- The loop of `put_bytes`, with the bytes that have not been put yet. -/
def putLoop : Nat → ReliSock → List Byte → Option ReliSock
  | 0, _, _ => none
  | fuel + 1, s, data =>
    let r := s.prepare.sndBuf.putMax data
    let s' := { s.prepare with sndBuf := r.1 }
    if data.drop r.2 = [] then some s' else putLoop fuel s' (data.drop r.2)

def putBytes (s : ReliSock) (data : List Byte) : Option ReliSock :=
  putLoop (data.length + 1) { s with ignoreNextEncodeEom := false } data

/-- `end_of_message` of a socket that encodes. -/
def endOfMessageEncode (s : ReliSock) : Bool × ReliSock :=
  if s.ignoreNextEncodeEom then (true,{ s with ignoreNextEncodeEom := false })
  else if !s.sndBuf.empty then (true,s.sndPacket true)
  else if s.allowEmptyMessageFlag then (true,{ s with allowEmptyMessageFlag := false })
  else (false,s)

def endMark (b : Byte) : Int := Int.bmod b.toNat 256

def rcvPacket (s : ReliSock) : Bool × ReliSock :=
  match s.incoming with
  | hdr0 :: hdr1 :: hdr2 :: hdr3 :: hdr4 :: rest =>
    let len := ntohl hdr1 hdr2 hdr3 hdr4
    if endMark hdr0 < 0 ∨ endMark hdr0 > 10 then (false,{ s with incoming := rest })
    else if len > condorIoBufSize then (false,{ s with incoming := rest })
    else if len ≤ 0 then (false,{ s with incoming := rest })
    else if rest.length < len then (false,{ s with incoming := [] })
    else
      if h : (rest.take len.toNat).length ≤ condorIoBufSize then
        (true,{ s with
          rcvBuf := s.rcvBuf.put (Buf.ofBytes (rest.take len.toNat) h)
          ready := s.ready || endMark hdr0 != 0
          incoming := rest.drop len.toNat })
      else (false,{ s with incoming := rest })
  | _ => (false,{ s with incoming := [] })

def handleIncomingPacket (s : ReliSock) : Bool × ReliSock :=
  let s := { s with allowEmptyMessageFlag := false }
  if s.ready then (true,s) else s.rcvPacket

def await : Nat → ReliSock → Bool × ReliSock
  | 0, s => (false,s)
  | fuel + 1, s =>
    if s.ready then (true,s)
    else if s.handleIncomingPacket.1 then await fuel s.handleIncomingPacket.2
    else (false,s.handleIncomingPacket.2)

def getBytes (s : ReliSock) (maxSz : Nat) : Got × ReliSock :=
  let r := await (s.incoming.length + 1) { s with ignoreNextDecodeEom := false }
  if r.1 then (Got.ofBytes (r.2.rcvBuf.get maxSz).1,{ r.2 with rcvBuf := (r.2.rcvBuf.get maxSz).2 })
  else (⟨0,[]⟩,r.2)

def getPtr (s : ReliSock) (delim : Byte) : Got × ReliSock :=
  let r := await (s.incoming.length + 1) s
  if r.1 then
    ((r.2.rcvBuf.getTmp delim).1.elim ⟨-1,[]⟩ Got.ofBytes,
      { r.2 with rcvBuf := (r.2.rcvBuf.getTmp delim).2 })
  else (⟨0,[]⟩,r.2)

def peek (s : ReliSock) : Got × ReliSock :=
  let r := await (s.incoming.length + 1) s
  if r.1 then
    (r.2.rcvBuf.peek.1.elim ⟨0,[]⟩ fun c => ⟨1,[c]⟩,{ r.2 with rcvBuf := r.2.rcvBuf.peek.2 })
  else (⟨0,[]⟩,r.2)

/-- `end_of_message` of a socket that decodes. -/
def endOfMessageDecode (s : ReliSock) : Bool × ReliSock :=
  if s.ignoreNextDecodeEom then (true,{ s with ignoreNextDecodeEom := false })
  else if s.ready then
    (s.rcvBuf.consumed,
      { s with ready := false, rcvBuf := ChainBuf.new, allowEmptyMessageFlag := false })
  else (s.allowEmptyMessageFlag,{ s with allowEmptyMessageFlag := false })

end ReliSock

end Condor.Io
