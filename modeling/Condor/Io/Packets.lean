import Condor.Io.ReliSock

/-!
# Messages through packets

What `putBytes` and `endOfMessage` write is accepted unless the last packet is empty, and reading
from packets is reading their payload unless a packet fills a buffer.
-/

namespace Condor.Io

open List Option

/-- A payload that `rcvPacket` accepts. -/
structure Packet where
  payload : List Byte
  ne_nil : payload ≠ []
  sz_le : payload.length ≤ condorIoBufSize

def Packet.buf (p : Packet) : Buf := Buf.ofBytes p.payload p.sz_le

def encode (mark : Byte) (payload : List Byte) : List Byte :=
  mark :: (htonl payload.length ++ payload)

structure Division where
  init : List Packet
  last : Packet
  mark : Byte
  mark_pos : 0 < mark
  mark_le : mark ≤ 10

namespace Division

variable (d : Division)

def packets : List Packet := d.init ++ [d.last]

def wire : List Byte :=
  d.init.flatMap (fun p => encode 0 p.payload) ++ encode d.mark d.last.payload

def message : List Byte := d.packets.flatMap Packet.payload

end Division

private theorem ntohl_htonl {n : Nat} (hn : n < 2^31) (mark : Byte) (rest : List Byte) :
    ∃ b0 b1 b2 b3, mark :: (htonl n ++ rest) = mark :: b0 :: b1 :: b2 :: b3 :: rest ∧
      ntohl b0 b1 b2 b3 = n := by
  refine ⟨_,_,_,_,rfl,?_⟩
  have hmod : ((n : Int) % 2^32).toNat = n := by omega
  rw [ntohl,hmod,toInt]
  simp only [UInt8.toNat_ofNat']
  have hsum : n / 2^24 % 2^8 * 2^24 + n / 2^16 % 2^8 * 2^16 + n / 2^8 % 2^8 * 2^8 + n % 2^8 =
    n := by
    omega
  rw [hsum]
  apply Int.bmod_eq_of_le <;> omega

namespace ReliSock

private theorem toNat_le_ten {b : Byte} (hb : b ≤ 10) : b.toNat ≤ 10 := by
  simpa using UInt8.le_iff_toNat_le.mp hb

private theorem endMark_eq {b : Byte} (hb : b ≤ 10) : endMark b = b.toNat := by
  have hle := toNat_le_ten hb
  unfold endMark
  exact Int.bmod_eq_of_le (by omega) (by omega)

variable {mark : Byte} {more : List Byte}

private theorem rcvPacket_encode (s : ReliSock) (hmark : mark ≤ 10) (p : Packet)
    (hs : s.incoming = encode mark p.payload ++ more) :
    s.rcvPacket = (true,{ s with
      rcvBuf := s.rcvBuf.put (Buf.ofBytes p.payload p.sz_le)
      ready := s.ready || decide (0 < mark)
      incoming := more }) := by
  have hlen : p.payload.length < 2^31 := Nat.lt_of_le_of_lt p.sz_le (by decide)
  have hpos := length_pos_of_ne_nil p.ne_nil
  have hle := p.sz_le
  obtain ⟨b0,b1,b2,b3,hbytes,hnum⟩ := ntohl_htonl hlen mark (p.payload ++ more)
  have hmark10 := toNat_le_ten hmark
  have hready : ((mark.toNat : Int) != 0) = decide (0 < mark) := by
    rw [Bool.eq_iff_iff,bne_iff_ne,decide_eq_true_eq,UInt8.lt_iff_toNat_lt]
    show _ ↔ 0 < mark.toNat
    omega
  have hin : s.incoming = mark :: b0 :: b1 :: b2 :: b3 :: (p.payload ++ more) := by
    rw [hs,encode,cons_append,append_assoc,hbytes]
  have htake : (p.payload ++ more).take ((p.payload.length : Int)).toNat = p.payload := by
    rw [Int.toNat_natCast]
    exact take_left
  have hdrop : (p.payload ++ more).drop ((p.payload.length : Int)).toNat = more := by
    rw [Int.toNat_natCast]
    exact drop_left
  rw [rcvPacket,hin]
  dsimp only
  rw [hnum,endMark_eq hmark,if_neg (by omega),if_neg (by omega),if_neg (by omega),
    if_neg (by rw [length_append]; omega)]
  simp only [htake,hdrop,hle,dif_pos,hready]

private theorem rcvPacket_empty (s : ReliSock) (mark : Byte)
    (hs : s.incoming = encode mark [] ++ more) : s.rcvPacket.1 = false := by
  obtain ⟨b0,b1,b2,b3,hbytes,hnum⟩ := ntohl_htonl (by decide : 0 < 2^31) mark more
  have hin : s.incoming = mark :: b0 :: b1 :: b2 :: b3 :: more := by
    rw [hs,← hbytes]
    rfl
  rw [rcvPacket,hin]
  dsimp only
  rw [hnum]
  split
  · rfl
  · rw [if_neg (by decide),if_pos (by decide)]

def maxPayload : Nat := condorIoBufSize - normalHeaderSize

/-- The message so far: full packets that were sent, and a payload in the buffer. -/
structure Sending (s : ReliSock) (msg : List Byte) (sent : List (List Byte)) (payload : List Byte) :
    Prop where
  full : ∀ p ∈ sent, p.length = maxPayload
  outgoing : s.outgoing = sent.flatMap (encode 0)
  msg : msg = sent.flatten ++ payload
  size : s.sndBuf.dta.length = normalHeaderSize + payload.length
  data : s.sndBuf.dta.drop normalHeaderSize = payload
  eom : s.ignoreNextEncodeEom = false

structure Unused (s : ReliSock) : Prop where
  outgoing : s.outgoing = []
  buf : s.sndBuf = Buf.new
  eom : s.ignoreNextEncodeEom = false

variable {sent : List (List Byte)}

theorem Sending.sndPacket {s : ReliSock} {msg payload : List Byte}
    (h : Sending s msg sent payload) (last : Bool) :
    s.sndPacket last = { s with
      sndBuf := Buf.new
      outgoing := sent.flatMap (encode 0) ++ encode (if last then 1 else 0) payload } := by
  have hns : (s.sndBuf.dta.length : Int) - normalHeaderSize = payload.length := by
    rw [h.size]
    omega
  have hhdr : ((if last then 1 else 0) :: htonl payload.length : List Byte).length =
      normalHeaderSize := rfl
  unfold ReliSock.sndPacket Buf.flush
  simp only [hns,hhdr,h.data,h.outgoing]
  rw [take_of_length_le]
  · rfl
  · rw [length_append,hhdr,h.size]

theorem Sending.prepare {s : ReliSock} {msg payload : List Byte}
    (h : Sending s msg sent payload) : ∃ sent' payload', Sending s.prepare msg sent' payload' ∧
      payload'.length < maxPayload := by
  have hle := s.sndBuf.sz_le
  rw [h.size] at hle
  by_cases hfull : s.sndBuf.full = true
  · have hlen : payload.length = maxPayload := by
      simp only [Buf.full,beq_iff_eq,h.size] at hfull
      simp only [maxPayload]
      omega
    refine ⟨sent ++ [payload],[],?_,by decide⟩
    have hprep : s.prepare = { s with
        sndBuf := Buf.new.seek normalHeaderSize
        outgoing := sent.flatMap (encode 0) ++ encode 0 payload } := by
      unfold ReliSock.prepare
      rw [if_pos hfull,h.sndPacket]
      rfl
    rw [hprep]
    constructor
    · intro p hp
      rcases List.mem_append.mp hp with hp | hp
      · exact h.full p hp
      · rw [List.mem_singleton.mp hp,hlen]
    · simp
    · simp [h.msg]
    · rfl
    · rfl
    · exact h.eom
  · have hempty : ¬ s.sndBuf.empty = true := by
      simp only [Buf.empty,beq_iff_eq,h.size,normalHeaderSize]
      omega
    have hprep : s.prepare = s := by
      unfold ReliSock.prepare
      rw [if_neg hfull]
      exact if_neg hempty
    rw [hprep]
    refine ⟨sent,payload,h,?_⟩
    simp only [Buf.full,beq_iff_eq,h.size] at hfull
    simp only [maxPayload]
    omega

theorem Unused.prepare {s : ReliSock} (h : Unused s) : Sending s.prepare [] [] [] := by
  have hprep : s.prepare = { s with sndBuf := Buf.new.seek normalHeaderSize } := by
    have hfull : ¬ s.sndBuf.full = true := by
      rw [h.buf]
      decide
    have hempty : s.sndBuf.empty = true := by
      rw [h.buf]
      rfl
    unfold ReliSock.prepare
    rw [if_neg hfull]
    exact (if_pos hempty).trans (by rw [h.buf])
  rw [hprep]
  exact ⟨fun _ hp => (not_mem_nil hp).elim,h.outgoing,rfl,rfl,rfl,h.eom⟩

/-- What a `putBytes` leaves in the buffer. -/
structure Put (s : ReliSock) (msg data : List Byte) : Prop where
  sending : ∃ sent payload, Sending s (msg ++ data) sent payload ∧ (data ≠ [] → payload ≠ []) ∧
    (data = [] → payload.length < maxPayload)

private theorem putLoop_spec {fuel : Nat} {s : ReliSock} {msg data : List Byte}
    (hfuel : data.length < fuel)
    (h : ∃ sent payload, Sending s.prepare msg sent payload ∧ payload.length < maxPayload) :
    ∃ s', putLoop fuel s data = some s' ∧ Put s' msg data := by
  induction fuel generalizing s msg data with
  | zero => omega
  | succ fuel ih =>
    obtain ⟨sent,payload,hs,hroom⟩ := h
    have hfree : s.prepare.sndBuf.numFree = maxPayload - payload.length := by
      simp only [Buf.numFree,hs.size,maxPayload,normalHeaderSize]
      omega
    have hput : Sending { s.prepare with sndBuf := (s.prepare.sndBuf.putMax data).1 }
        (msg ++ data.take (maxPayload - payload.length)) sent
        (payload ++ data.take (maxPayload - payload.length)) := by
      have hle : normalHeaderSize ≤ s.prepare.sndBuf.dta.length := by
        rw [hs.size]
        exact Nat.le_add_right _ _
      refine ⟨hs.full,hs.outgoing,by rw [hs.msg,append_assoc],?_,?_,hs.eom⟩
      · simp only [Buf.putMax,hfree,length_append,hs.size]
        omega
      · simp only [Buf.putMax,hfree,drop_append_of_le_length hle,hs.data]
    have hcount : (s.prepare.sndBuf.putMax data).2 = min data.length
      (maxPayload - payload.length) := by
      rw [← hfree]
      rfl
    have hdrop : data.drop (s.prepare.sndBuf.putMax data).2 =
        data.drop (maxPayload - payload.length) := by
      rw [hcount]
      rcases Nat.le_total data.length (maxPayload - payload.length) with hle | hle
      · rw [Nat.min_eq_left hle,drop_length,drop_eq_nil_of_le hle]
      · rw [Nat.min_eq_right hle]
    rw [putLoop]
    dsimp only
    rw [hdrop]
    split
    · next hnil =>
      have hall : data.take (maxPayload - payload.length) = data :=
        take_of_length_le (List.drop_eq_nil_iff.mp hnil)
      rw [hall] at hput
      refine ⟨_,rfl,sent,payload ++ data,hput,?_,?_⟩
      · intro hne
        simp [hne]
      · intro hdata
        simpa [hdata] using hroom
    · next hne =>
      have hlt : (data.drop (maxPayload - payload.length)).length < fuel := by
        rw [drop_eq_nil_iff] at hne
        rw [length_drop]
        omega
      obtain ⟨s',hs',sent',payload',hsend,hne',-⟩ := ih hlt hput.prepare
      refine ⟨s',hs',sent',payload',?_,fun _ => hne' hne,?_⟩
      · rw [append_assoc,take_append_drop] at hsend
        exact hsend
      · intro hdata
        simp [hdata] at hne

private theorem putBytes_spec {s : ReliSock} (data : List Byte) {msg : List Byte}
    (h : (∃ sent payload, Sending s msg sent payload) ∨ Unused s ∧ msg = []) :
    ∃ s', putBytes s data = some s' ∧ Put s' msg data := by
  apply putLoop_spec (Nat.lt_succ_self _)
  rcases h with ⟨sent,payload,h⟩ | ⟨h,rfl⟩
  · have h' : Sending { s with ignoreNextEncodeEom := false } msg sent payload :=
      ⟨h.full,h.outgoing,h.msg,h.size,h.data,rfl⟩
    exact h'.prepare
  · have h' : Unused { s with ignoreNextEncodeEom := false } := ⟨h.outgoing,h.buf,rfl⟩
    exact ⟨[],[],h'.prepare,by decide⟩

def putAll : ReliSock → List (List Byte) → Option ReliSock
  | s, [] => some s
  | s, data :: more => (s.putBytes data).bind fun s' => putAll s' more

private theorem putAll_spec {s : ReliSock} {puts : List (List Byte)} {data msg : List Byte}
    (h : (∃ sent payload, Sending s msg sent payload) ∨ Unused s ∧ msg = []) :
    ∃ s', putAll s (puts ++ [data]) = some s' ∧ Put s' (msg ++ puts.flatten) data := by
  induction puts generalizing s msg with
  | nil =>
    obtain ⟨s',hs',hput⟩ := putBytes_spec data h
    refine ⟨s',?_,by simpa using hput⟩
    rw [nil_append,putAll,hs']
    rfl
  | cons first puts ih =>
    obtain ⟨t,ht,sent,payload,hsend,-⟩ := putBytes_spec first h
    obtain ⟨s',hs',hput⟩ := ih (.inl ⟨sent,payload,hsend⟩)
    refine ⟨s',?_,?_⟩
    · rw [cons_append,putAll,ht]
      exact hs'
    · rw [flatten_cons,← append_assoc]
      exact hput

def send (puts : List (List Byte)) : Option (List Byte) :=
  (putAll (new []) puts).map fun s => s.endOfMessageEncode.2.outgoing

inductive AllAccepted : ReliSock → Prop
  | done {s : ReliSock} (h : s.incoming = []) : AllAccepted s
  | step {s s' : ReliSock} (h : s.rcvPacket = (true,s')) (hs' : AllAccepted s') : AllAccepted s

def EndsEmpty (puts : List (List Byte)) : Prop :=
  puts.getLast? = some [] ∧ maxPayload ∣ puts.flatten.length

private theorem send_eq (puts : List (List Byte)) (data : List Byte) :
    ∃ (sent : List (List Byte)) (payload : List Byte), send (puts ++ [data]) = some
    (sent.flatMap (encode 0) ++ encode 1 payload) ∧
      (puts ++ [data]).flatten = sent.flatten ++ payload ∧ (∀ p ∈ sent, p.length = maxPayload) ∧
      payload.length ≤ maxPayload ∧ (payload = [] ↔ EndsEmpty (puts ++ [data])) := by
  have hnew : Unused (new []) := ⟨rfl,rfl,rfl⟩
  obtain ⟨s,hs,sent,payload,hsend,hne,hlt⟩ : ∃ s, putAll (new []) (puts ++ [data]) = some s ∧
      Put s ([] ++ puts.flatten) data := putAll_spec (.inr ⟨hnew,rfl⟩)
  have hmsg := hsend.msg
  rw [nil_append] at hmsg
  have hflat : (puts ++ [data]).flatten = sent.flatten ++ payload := by
    rw [flatten_append,flatten_singleton,hmsg]
  have hle := s.sndBuf.sz_le
  rw [hsend.size] at hle
  refine ⟨sent,payload,?_,hflat,hsend.full,by simp only [maxPayload]; omega,?_⟩
  · have hempty : ¬ s.sndBuf.empty = true := by
      simp only [Buf.empty,beq_iff_eq,hsend.size,normalHeaderSize]
      omega
    rw [send,hs,map_some,endOfMessageEncode,hsend.eom]
    simp [hempty,hsend.sndPacket]
  · have hsum : sent.flatten.length = maxPayload * sent.length := by
      rw [length_flatten,map_congr_left hsend.full,map_const',sum_replicate_nat,
        Nat.mul_comm]
    rw [EndsEmpty,hflat,getLast?_concat,length_append,hsum,
      Nat.dvd_add_right (Nat.dvd_mul_right _ _)]
    constructor
    · rintro rfl
      refine ⟨?_,Nat.dvd_zero _⟩
      by_contra hdata
      exact hne (fun h => hdata (congrArg some h)) rfl
    · rintro ⟨hdata,hdvd⟩
      have hlt' := hlt (some.inj hdata)
      exact eq_nil_of_length_eq_zero (Nat.eq_zero_of_dvd_of_lt hdvd hlt')

private theorem allAccepted_encode {s : ReliSock} (hmark : mark ≤ 10) (p : Packet)
    (hs : s.incoming = encode mark p.payload ++ more) :
    ∃ s', s'.incoming = more ∧ (AllAccepted s ↔ AllAccepted s') := by
  refine ⟨_,rfl,?_,AllAccepted.step (rcvPacket_encode s hmark p hs)⟩
  intro h
  cases h with
  | done h => exact absurd (hs.symm.trans h) (by simp [encode])
  | step h hs' =>
    obtain ⟨-,rfl⟩ := Prod.mk.inj ((rcvPacket_encode s hmark p hs).symm.trans h)
    exact hs'

private theorem allAccepted_packets {s : ReliSock} (ps : List Packet)
    (hs : s.incoming = ps.flatMap (fun p => encode 0 p.payload) ++ more) :
    ∃ s', s'.incoming = more ∧ (AllAccepted s ↔ AllAccepted s') := by
  induction ps generalizing s with
  | nil => exact ⟨s,hs,Iff.rfl⟩
  | cons p ps ih =>
    rw [flatMap_cons,append_assoc] at hs
    obtain ⟨t,ht,hiff⟩ := allAccepted_encode (by decide) p hs
    obtain ⟨s',hs',hiff'⟩ := ih ht
    exact ⟨s',hs',hiff.trans hiff'⟩

private theorem exists_packets (h : ∀ p ∈ sent, p.length = maxPayload) :
    ∃ ps : List Packet, ps.map Packet.payload = sent := by
  induction sent with
  | nil => exact ⟨[],rfl⟩
  | cons p sent ih =>
    obtain ⟨ps,hps⟩ := ih fun q hq => h q (mem_cons_of_mem _ hq)
    have hlen := h p mem_cons_self
    have hne : p ≠ [] := by
      rintro rfl
      cases hlen
    exact ⟨⟨p,hne,by rw [hlen]; decide⟩ :: ps,by rw [map_cons,hps]⟩

theorem allAccepted_send_iff (puts : List (List Byte)) :
    (∃ wire, send puts = some wire ∧ AllAccepted (new wire)) ↔ ¬ EndsEmpty puts := by
  rcases eq_nil_or_concat puts with rfl | ⟨puts,data,rfl⟩
  · have hends : ¬ EndsEmpty [] := fun h => nomatch h.1
    exact ⟨fun _ => hends,fun _ => ⟨[],rfl,.done rfl⟩⟩
  · rw [concat_eq_append]
    obtain ⟨sent,payload,hsend,-,hfull,hle,hiff⟩ := send_eq puts data
    obtain ⟨ps,rfl⟩ := exists_packets hfull
    rw [flatMap_map] at hsend
    have hin : (new (ps.flatMap (fun p => encode 0 p.payload) ++ encode 1 payload)).incoming =
        ps.flatMap (fun p => encode 0 p.payload) ++ (encode 1 payload ++ []) := by
      rw [append_nil]
      rfl
    obtain ⟨s,hs,haccept⟩ := allAccepted_packets ps hin
    have hwire : (∃ wire, send (puts ++ [data]) = some wire ∧ AllAccepted (new wire)) ↔
        AllAccepted s := by
      rw [← haccept]
      constructor
      · rintro ⟨wire,hw,h⟩
        obtain rfl := some.inj (hsend.symm.trans hw)
        exact h
      · intro h
        exact ⟨_,hsend,h⟩
    rw [hwire,← hiff]
    constructor
    · rintro h rfl
      cases h with
      | done h => exact absurd (hs.symm.trans h) (by simp [encode])
      | step h _ =>
        have hrefused := rcvPacket_empty s 1 hs
        rw [h] at hrefused
        cases hrefused
    · intro hne
      have hsz : payload.length ≤ condorIoBufSize := hle.trans (by decide)
      obtain ⟨s',hs',hlast⟩ := allAccepted_encode (by decide) ⟨payload,hne,hsz⟩ hs
      exact hlast.mpr (.done hs')

private theorem buf_put (rest : List Buf) (b : Buf) :
    ChainBuf.put ⟨[],rest⟩ b = ⟨[],rest ++ [b]⟩ := by
  cases rest <;> simp [ChainBuf.put]

private theorem handleIncomingPacket_encode {s : ReliSock} (hready : s.ready = false)
    (hmark : mark ≤ 10) (p : Packet) (hs : s.incoming = encode mark p.payload ++ more) :
    s.handleIncomingPacket = (true,{ s with
      rcvBuf := s.rcvBuf.put p.buf
      ready := decide (0 < mark)
      allowEmptyMessageFlag := false
      incoming := more }) := by
  have hrcv := rcvPacket_encode { s with allowEmptyMessageFlag := false } hmark p hs
  unfold handleIncomingPacket
  dsimp only
  rw [if_neg (by simp [hready]),hrcv,hready,Bool.false_or]
  rfl

private theorem await_step {fuel : Nat} {s : ReliSock} (hready : s.ready = false)
    (hhandle : s.handleIncomingPacket.1 = true) :
    await (fuel + 1) s = await fuel s.handleIncomingPacket.2 := by
  rw [await,if_neg (by simp [hready]),if_pos hhandle]

private theorem await_packets {s : ReliSock} (ps : List Packet) (last : Packet)
    (hpos : 0 < mark) (hle : mark ≤ 10) {rest : List Buf} {fuel : Nat}
    (hfuel : ps.length + 2 ≤ fuel) (hbuf : s.rcvBuf = ⟨[],rest⟩) (hready : s.ready = false)
    (hs : s.incoming = ps.flatMap (fun p => encode 0 p.payload) ++
    (encode mark last.payload ++ more)) :
    await fuel s = (true,{ s with
      rcvBuf := ⟨[],rest ++ ps.map Packet.buf ++ [last.buf]⟩
      ready := true
      allowEmptyMessageFlag := false
      incoming := more }) := by
  induction ps generalizing s rest fuel with
  | nil =>
    obtain ⟨fuel,rfl⟩ : ∃ n, fuel = n + 2 := ⟨fuel - 2,by rw [length_nil] at hfuel; omega⟩
    have hhandle : s.handleIncomingPacket = _ := handleIncomingPacket_encode hready hle last hs
    rw [await_step hready (congrArg Prod.fst hhandle),hhandle,hbuf,buf_put,await]
    simp [hpos]
  | cons p ps ih =>
    obtain ⟨fuel,rfl⟩ : ∃ n, fuel = n + 1 := ⟨fuel - 1,by omega⟩
    rw [flatMap_cons,append_assoc] at hs
    have hhandle : s.handleIncomingPacket = _ := handleIncomingPacket_encode hready (by decide) p hs
    rw [await_step hready (congrArg Prod.fst hhandle),hhandle,hbuf,buf_put,
      ih (by rw [length_cons] at hfuel; omega) rfl (by simp) rfl]
    simp

def read (s : ReliSock) : Read → Got × ReliSock
  | .bytes maxSz => s.getBytes maxSz
  | .ptr delim => s.getPtr delim
  | .peek => s.peek

def reads : ReliSock → List Read → List Got × ReliSock
  | s, [] => ([],s)
  | s, op :: ops => ((s.read op).1 :: (reads (s.read op).2 ops).1,(reads (s.read op).2 ops).2)

def flatRead (bytes : List Byte) : Read → Got × List Byte
  | .bytes maxSz => (Got.ofBytes (bytes.take maxSz),bytes.drop maxSz)
  | .ptr delim =>
    ((flatPtr bytes delim).1.elim ⟨-1,[]⟩ Got.ofBytes,(flatPtr bytes delim).2)
  | .peek => (bytes.head?.elim ⟨0,[]⟩ fun c => ⟨1,[c]⟩,bytes)

def flatReads : List Byte → List Read → List Got × List Byte
  | bytes, [] => ([],bytes)
  | bytes, op :: ops =>
    ((flatRead bytes op).1 :: (flatReads (flatRead bytes op).2 ops).1,
      (flatReads (flatRead bytes op).2 ops).2)

/-- Reads of any sizes see the message undivided, and so does its end. -/
def ReadsFlat (d : Division) : Prop :=
  ∀ (more : List Byte) (ops : List Read),
    (reads (new (d.wire ++ more)) ops).1 = (flatReads d.message ops).1 ∧
      ((reads (new (d.wire ++ more)) ops).2.endOfMessageDecode.1 = true ↔
        (flatReads d.message ops).2 = [])

structure Reading (s : ReliSock) (bytes : List Byte) : Prop where
  ready : s.ready = true
  sound : s.rcvBuf.Sound
  flat : s.rcvBuf.flat = bytes
  eom : s.ignoreNextDecodeEom = false

structure Expecting (s : ReliSock) (d : Division) : Prop where
  ready : s.ready = false
  rcvBuf : s.rcvBuf = ChainBuf.new
  incoming : ∃ more, s.incoming = d.wire ++ more
  eom : s.ignoreNextDecodeEom = false
  empty : s.allowEmptyMessageFlag = false

theorem length_wire (d : Division) : d.init.length + 1 ≤ d.wire.length := by
  have hone : ∀ (mark : Byte) (payload : List Byte), 1 ≤ (encode mark payload).length := by
    intro mark payload
    simp [encode]
  have hinit : ∀ ps : List Packet,
      ps.length ≤ (ps.flatMap (fun p => encode 0 p.payload)).length := by
    intro ps
    induction ps with
    | nil => simp
    | cons p ps ih =>
      have hp := hone 0 p.payload
      rw [flatMap_cons,length_append,length_cons]
      omega
  have hlast := hone d.mark d.last.payload
  have h := hinit d.init
  rw [Division.wire,length_append]
  omega

theorem Expecting.await {s : ReliSock} {d : Division} (h : Expecting s d) :
    ∃ s', await (s.incoming.length + 1) s = (true,s') ∧ s'.ready = true ∧
      s'.rcvBuf = ⟨[],d.packets.map Packet.buf⟩ ∧ s'.ignoreNextDecodeEom = false := by
  obtain ⟨more,hmore⟩ := h.incoming
  have hlen := length_wire d
  have hfuel : d.init.length + 2 ≤ s.incoming.length + 1 := by
    rw [hmore,length_append]
    omega
  rw [Division.wire,append_assoc] at hmore
  refine ⟨_,await_packets d.init d.last d.mark_pos d.mark_le hfuel h.rcvBuf h.ready hmore,rfl,?_,
    h.eom⟩
  simp [Division.packets]

private theorem flatMap_untouched (ps : List Packet) :
    (ps.map Packet.buf).flatMap Buf.untouched = ps.flatMap Packet.payload := by
  rw [flatMap_map]
  rfl

private theorem Expecting.reading {s : ReliSock} {d : Division} (h : Expecting s d) :
    ∃ s', ReliSock.await (s.incoming.length + 1) s = (true,s') ∧ Reading s' d.message ∧
      s'.rcvBuf.rest = d.packets.map Packet.buf := by
  obtain ⟨s',hs',hready,hbuf,heom⟩ := h.await
  refine ⟨s',hs',⟨hready,?_,?_,heom⟩,by rw [hbuf]⟩
  · rw [hbuf]
    constructor
    · intro b hb
      cases hb
    · intro b hb
      obtain ⟨p,-,rfl⟩ := List.mem_map.mp (mem_of_mem_tail hb)
      exact p.ne_nil
  · rw [hbuf]
    exact flatMap_untouched d.packets

variable {bytes : List Byte}

theorem Reading.await {s : ReliSock} (h : Reading s bytes) (fuel : Nat) :
    ReliSock.await (fuel + 1) s = (true,s) := by
  rw [ReliSock.await,if_pos h.ready]

section

variable {s s' : ReliSock} (hawait : ReliSock.await (s.incoming.length + 1) s = (true,s'))

include hawait

private theorem getBytes_of_await (heom : s.ignoreNextDecodeEom = false) (maxSz : Nat) :
    s.read (.bytes maxSz) = (Got.ofBytes (s'.rcvBuf.get maxSz).1,
      { s' with rcvBuf := (s'.rcvBuf.get maxSz).2 }) := by
  have hs : { s with ignoreNextDecodeEom := false } = s := by rw [← heom]
  rw [read,getBytes,hs,hawait]
  rfl

private theorem getPtr_of_await (delim : Byte) :
    s.read (.ptr delim) = ((s'.rcvBuf.getTmp delim).1.elim ⟨-1,[]⟩ Got.ofBytes,
      { s' with rcvBuf := (s'.rcvBuf.getTmp delim).2 }) := by
  rw [read,getPtr,hawait]
  rfl

private theorem peek_of_await :
    s.read .peek = (s'.rcvBuf.peek.1.elim ⟨0,[]⟩ fun c => ⟨1,[c]⟩,
      { s' with rcvBuf := s'.rcvBuf.peek.2 }) := by
  rw [read,peek,hawait]
  rfl

end

private theorem read_of_await {s s' : ReliSock} (heom : s.ignoreNextDecodeEom = false)
    (hawait : ReliSock.await (s.incoming.length + 1) s = (true,s')) (h : Reading s' bytes)
    (hroomy : s'.rcvBuf.Roomy) (op : Read) :
    (s.read op).1 = (flatRead bytes op).1 ∧ Reading (s.read op).2 (flatRead bytes op).2 ∧
      (s.read op).2.rcvBuf.Roomy := by
  cases op with
  | bytes maxSz =>
    rw [getBytes_of_await hawait heom,ChainBuf.get_bytes,h.flat]
    refine ⟨rfl,⟨h.ready,ChainBuf.getFrom_sound h.sound _,?_,h.eom⟩,
      ChainBuf.getFrom_roomy hroomy _⟩
    rw [ChainBuf.get_flat,h.flat]
    rfl
  | ptr delim =>
    obtain ⟨h1,h2⟩ := ChainBuf.getTmp_spec hroomy delim
    rw [getPtr_of_await hawait,h1,h.flat]
    refine ⟨rfl,⟨h.ready,ChainBuf.getTmp_sound h.sound _,?_,h.eom⟩,
      ChainBuf.getTmp_roomy hroomy _⟩
    rw [h2,h.flat]
    rfl
  | peek =>
    obtain ⟨h1,h2,h3⟩ := ChainBuf.peek_spec h.sound
    rw [peek_of_await hawait,h1,h.flat]
    exact ⟨rfl,⟨h.ready,h3,h2.trans h.flat,h.eom⟩,ChainBuf.peek_roomy hroomy⟩

theorem Reading.reads {s : ReliSock} (h : Reading s bytes)
    (hroomy : s.rcvBuf.Roomy) (ops : List Read) :
    (reads s ops).1 = (flatReads bytes ops).1 ∧
      Reading (reads s ops).2 (flatReads bytes ops).2 := by
  induction ops generalizing s bytes with
  | nil => exact ⟨rfl,h⟩
  | cons op ops ih =>
    obtain ⟨h1,h2,h3⟩ := read_of_await h.eom (h.await _) h hroomy op
    obtain ⟨h4,h5⟩ := ih h2 h3
    rw [ReliSock.reads,flatReads,h1,h4]
    exact ⟨rfl,h5⟩

private theorem expecting_new (d : Division) (more : List Byte) :
    Expecting (new (d.wire ++ more)) d :=
  ⟨rfl,rfl,⟨more,rfl⟩,rfl,rfl⟩

private theorem readsFlat_of_roomy {d : Division}
    (hroomy : ∀ p ∈ d.packets, p.payload.length < condorIoBufSize) : ReadsFlat d := by
  intro more ops
  have hnew := expecting_new d more
  cases ops with
  | nil =>
    -- the message has not been received and is not empty
    have hne : d.message ≠ [] := by
      intro h
      apply d.last.ne_nil
      apply List.flatMap_eq_nil_iff.mp h
      simp [Division.packets]
    refine ⟨rfl,?_,fun h => absurd h hne⟩
    intro h
    cases h
  | cons op ops =>
    obtain ⟨s',hawait,hreading,hrest⟩ := hnew.reading
    have hbufs : s'.rcvBuf.Roomy := by
      intro b hb
      rw [hrest] at hb
      obtain ⟨p,hp,rfl⟩ := List.mem_map.mp hb
      exact hroomy p hp
    obtain ⟨h1,h2,h3⟩ := read_of_await hnew.eom hawait hreading hbufs op
    obtain ⟨h4,h5⟩ := h2.reads h3 ops
    rw [reads,flatReads,h1,h4]
    refine ⟨rfl,?_⟩
    dsimp only
    rw [endOfMessageDecode,h5.eom,h5.ready]
    exact (ChainBuf.consumed_iff h5.sound).trans (by rw [h5.flat])

private theorem getTmp_full {b : Buf} {c : Byte} {passed bs : List Buf}
    (hsize : b.dta.length = condorIoBufSize) (hb : b.untouched = [c]) :
    ChainBuf.flat (ChainBuf.getTmp ⟨passed,b :: bs⟩ c).2 =
      c :: bs.flatMap Buf.untouched := by
  have hpt : b.dtaPt = condorIoBufSize - 1 := by
    have hlen := b.length_untouched
    rw [hb,hsize,length_singleton] at hlen
    have hle := b.pt_le
    omega
  have hfind : b.find c = some 0 := by
    rw [Buf.find,hb]
    simp
  obtain ⟨h1,-⟩ := Buf.seek_untouched (Nat.zero_le b.dta.length) (by decide)
  have hseek : ((b.seek 0).seek (b.dtaPt + 0 + 1)).untouched = [c] := by
    rw [Buf.seek_clamped (by rw [hpt]; decide) (by rw [h1,hsize]),h1,← hb,Buf.untouched,hpt]
  rw [ChainBuf.getTmp]
  dsimp only
  rw [hfind]
  show ((b.seek 0).seek (b.dtaPt + 0 + 1)).untouched ++ _ = _
  rw [hseek]
  rfl

private theorem not_readsFlat_of_full {d : Division} {p : Packet} (hp : p ∈ d.packets)
    (hfull : p.payload.length = condorIoBufSize) : ¬ ReadsFlat d := by
  intro h
  obtain ⟨pre,post,hpackets⟩ := append_of_mem hp
  obtain ⟨q,c,hq⟩ : ∃ q c, p.payload = q ++ [c] := by
    obtain hnil | ⟨q,c,hq⟩ := eq_nil_or_concat p.payload
    · exact absurd hnil p.ne_nil
    · exact ⟨q,c,by rw [hq,concat_eq_append]⟩
  have hqlen : q.length = condorIoBufSize - 1 := by
    rw [hq,length_append,length_singleton] at hfull
    omega
  have hmsg : d.message = (pre.flatMap Packet.payload ++ q) ++ c :: post.flatMap
    Packet.payload := by
    rw [Division.message,hpackets,flatMap_append,flatMap_cons,hq]
    simp
  -- read up to the last byte of the packet, that byte as a delimiter, and one byte too many
  obtain ⟨-,-,hthird,-⟩ : _ ∧ _ ∧ _ ∧ _ := by
    have hreads := (h [] [.bytes (pre.flatMap Packet.payload ++ q).length,.ptr c,
      .bytes ((post.flatMap Packet.payload).length + 1)]).1
    simpa only [reads,flatReads,List.cons.injEq] using hreads
  obtain ⟨s1,hawait,hready,hbuf,heom⟩ := (expecting_new d []).await
  rw [getBytes_of_await hawait rfl] at hthird
  have hcursor : ∃ passed, (s1.rcvBuf.get (pre.flatMap Packet.payload ++ q).length).2 =
      ⟨passed,(p.buf.getMax q.length).2 :: post.map Packet.buf⟩ := by
    rw [hbuf,hpackets,map_append,map_cons,length_append,← flatMap_untouched]
    apply ChainBuf.getFrom_append
    · rw [hqlen]
      decide
    · show q.length ≤ p.payload.length
      rw [hqlen,hfull]
      decide
  obtain ⟨passed,hcursor⟩ := hcursor
  rw [hcursor] at hthird
  have hawait' : ∀ chain : ChainBuf,
      ReliSock.await (s1.incoming.length + 1) { s1 with rcvBuf := chain } =
        (true,{ s1 with rcvBuf := chain }) := by
    intro chain
    rw [ReliSock.await]
    exact if_pos hready
  have hptr : ∀ chain : ChainBuf, ({ s1 with rcvBuf := chain } : ReliSock).read (.ptr c) = _ :=
    fun chain => getPtr_of_await (hawait' chain) c
  have hbytes : ∀ (chain : ChainBuf) (n : Nat),
      ({ s1 with rcvBuf := chain } : ReliSock).read (.bytes n) = _ :=
    fun chain n => getBytes_of_await (hawait' chain) heom n
  dsimp only at hthird
  rw [hptr,hbytes,ChainBuf.get_bytes] at hthird
  have huntouched : (p.buf.getMax q.length).2.untouched = [c] := by
    rw [Buf.getMax_untouched]
    show p.payload.drop q.length = [c]
    rw [hq]
    exact drop_left
  have hskip : (flatRead d.message (.bytes (pre.flatMap Packet.payload ++ q).length)).2 =
      c :: post.flatMap Packet.payload := by
    rw [hmsg]
    exact drop_left
  have hdelim : (flatRead (c :: post.flatMap Packet.payload) (.ptr c)).2 =
      post.flatMap Packet.payload := by
    simp [flatRead,flatPtr,idxOf?_cons]
  rw [getTmp_full hfull huntouched,flatMap_untouched,hskip,hdelim] at hthird
  have hcode := congrArg Got.retval hthird
  simp [flatRead,Got.ofBytes] at hcode

theorem readsFlat_iff (d : Division) :
    ReadsFlat d ↔ ∀ p ∈ d.packets, p.payload.length < condorIoBufSize := by
  refine ⟨fun h p hp => ?_,readsFlat_of_roomy⟩
  apply Nat.lt_of_le_of_ne p.sz_le
  intro hfull
  exact not_readsFlat_of_full hp hfull h

/-- Exactly when a message survives: on the way out, unless its last packet is empty, and on the
way in, unless a packet fills a buffer. -/
theorem packetisation_iff (puts : List (List Byte)) (d : Division) :
    ((∃ wire, send puts = some wire ∧ AllAccepted (new wire)) ↔ ¬ EndsEmpty puts) ∧
    (ReadsFlat d ↔ ∀ p ∈ d.packets, p.payload.length < condorIoBufSize) :=
  ⟨allAccepted_send_iff puts,readsFlat_iff d⟩

def fullDivision : Division :=
  ⟨[],⟨List.replicate condorIoBufSize 0,by decide,by rw [length_replicate]⟩,1,by decide,
    by decide⟩

/-- A message without bytes is refused, so is one whose last, empty piece follows a full buffer; the
last byte of a full packet is read twice. -/
theorem packetisation_fails :
    (¬ ∃ wire, send [[]] = some wire ∧ AllAccepted (new wire)) ∧
      (¬ ∃ wire, send [List.replicate maxPayload 7,[]] = some wire ∧ AllAccepted (new wire)) ∧
      ¬ ReadsFlat fullDivision := by
  refine ⟨?_,?_,?_⟩
  · rw [allAccepted_send_iff]
    intro h
    exact h ⟨rfl,Nat.dvd_zero _⟩
  · rw [allAccepted_send_iff]
    intro h
    apply h
    refine ⟨rfl,?_⟩
    rw [flatten_cons,flatten_singleton,append_nil,length_replicate]
  · exact not_readsFlat_of_full (List.mem_singleton.mpr rfl) length_replicate

end ReliSock

end Condor.Io
