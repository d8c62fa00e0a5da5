import Condor.Lib.Run
import Condor.Io.Datagrams
import Condor.Io.Directory
import Condor.Io.Fragments

/-!
# Reassembling messages

The fragments of several messages arrive in any order, each at least once.
-/

namespace Condor.Io

open Condor.Lib Finset Option

/-- What happens at a socket: a datagram of a message arrives, the message that is ready is read
from, or it is closed. -/
inductive Happening
  | arrive (m i : Nat) (now : Int)
  | read (op : Read)
  | close

inductive Output
  | arrived (ready : Bool)
  | got (answer : Got)
  | closed (all : Bool)
  deriving DecidableEq

structure Receiver where
  arrived : Nat → Finset Nat
  opened : Option (List Byte)

section

variable (ms : List Message)

def datagramsOf (m : Nat) : List (List Byte) := (ms[m]?.bind Message.datagrams).getD []

def bytesOf (m : Nat) : List Byte := (ms[m]?.map Message.bytes).getD []

namespace Receiver

def start : Receiver := ⟨fun _ => ∅,none⟩

def Complete (r : Receiver) (m : Nat) : Prop := r.arrived m = range (datagramsOf ms m).length
deriving Decidable

def arrive (r : Receiver) (m i : Nat) : Receiver :=
  let r' : Receiver := ⟨Function.update r.arrived m (insert i (r.arrived m)),none⟩
  if r'.Complete ms m then { r' with opened := some (bytesOf ms m) } else r'

def step (r : Receiver) : Happening → Output × Receiver
  | .arrive m i _ => (.arrived (r.arrive ms m i).opened.isSome,r.arrive ms m i)
  | .read op =>
    (.got (flatRecv (r.opened.getD []) op).1,
      { r with opened := r.opened.map fun left => (flatRecv left op).2 })
  | .close => (.closed ((r.opened.getD []).isEmpty),{ r with opened := none })

end Receiver

/-- A socket and the receiver that it should be, with what each has answered. -/
structure Reception where
  sock : SafeSock
  receiver : Receiver
  outputs : List Output
  due : List Output

namespace Reception

def start (dataGram : List Byte) : Reception := ⟨SafeSock.new dataGram,Receiver.start,[],[]⟩

def answer (s : SafeSock) : Happening → Option (Output × SafeSock)
  | .arrive m i now => (datagramsOf ms m)[i]?.map fun dgram =>
    (.arrived (s.handleIncomingPacket dgram now).1,(s.handleIncomingPacket dgram now).2)
  | .read op => (s.read op).map fun r => (.got r.1,r.2)
  | .close => some (.closed s.endOfMessage.1,s.endOfMessage.2)

def step (w : Reception) (h : Happening) : Option Reception :=
  (answer ms w.sock h).map fun a =>
    ⟨a.2,(w.receiver.step ms h).2,w.outputs ++ [a.1],w.due ++ [(w.receiver.step ms h).1]⟩

def Keyed (m i : Nat) : Prop := (ms[m]?.map Message.sec).getD [] ≠ [] ∧ i = 0
deriving Decidable

/-- The tag of a security header stands only where there is one, and a message of one packet does
not begin like a fragment. -/
def Recognised (s : SafeSock) (m i : Nat) (dgram : List Byte) : Prop :=
  ((datagramsOf ms m).length = 1 → bytesAt (s.received dgram) 0 8 ≠ safeMsgMagic ∧
    (Keyed ms m i ∨ bytesAt (s.received dgram) 0 4 ≠ cryptoTag)) ∧
  ((datagramsOf ms m).length ≠ 1 →
    Keyed ms m i ∨ bytesAt (s.received dgram) safeMsgHeaderSize 4 ≠ cryptoTag)
deriving Decidable

def InTime (s : SafeSock) (m : Nat) (now : Int) : Prop :=
  ∀ x ∈ s.inMsgs (SafeSock.index ((ms[m]?.map fun M => M.id.wire).getD ⟨0,0,0,0⟩)),
    now - x.lastTime ≤ s.tOutBtwPkts
deriving Decidable

/-- Datagrams of incomplete messages arrive in time, and reads stay within what is there. -/
def Admits (w : Reception) : Happening → Prop
  | .arrive m i now => i < (datagramsOf ms m).length ∧ ¬ w.receiver.Complete ms m ∧
      InTime ms w.sock m now ∧ Recognised ms w.sock m i ((datagramsOf ms m).getD i [])
  | .read op => w.receiver.opened.isSome = true ∧ ∀ x ∈ w.sock.longMsg, InMsg.Within x op
  | .close => True

instance (w : Reception) (h : Happening) : Decidable (Admits ms w h) :=
  match h with
  | .arrive _ _ _ => inferInstanceAs (Decidable (_ ∧ _))
  | .read _ => inferInstanceAs (Decidable (_ ∧ _))
  | .close => .isTrue trivial

end Reception

end

namespace SafeSock

def stored (s : SafeSock) (id : MsgID) : List InMsg :=
  (s.inMsgs (index id)).filter (·.msgID = id)

private theorem filter_eraseP {id id' : MsgID} (hne : id ≠ id') (chain : List InMsg) :
    (chain.eraseP (·.msgID = id)).filter (·.msgID = id') = chain.filter (·.msgID = id') := by
  induction chain with
  | nil => rfl
  | cons x chain ih =>
    by_cases hx : x.msgID = id
    · have hx' : x.msgID ≠ id' := fun h => hne (hx.symm.trans h)
      rw [List.eraseP_cons_of_pos (by simpa using hx),List.filter_cons_of_neg (by simpa using hx')]
    · rw [List.eraseP_cons_of_neg (by simpa using hx),List.filter_cons,List.filter_cons,ih]

structure Closed (s : SafeSock) : Prop where
  msgReady : s.msgReady = false
  longMsg : s.longMsg = none

private theorem closed_endOfMessage {s : SafeSock} (h : s.msgReady = false → s.longMsg = none) :
    Closed s.endOfMessage.2 := by
  unfold endOfMessage
  split
  · cases s.longMsg <;> exact ⟨rfl,rfl⟩
  · next hready =>
    rw [Bool.not_eq_true] at hready
    exact ⟨hready,h hready⟩

private theorem endOfMessage_frame (s : SafeSock) :
    s.endOfMessage.2.dataGram = s.dataGram ∧ s.endOfMessage.2.tOutBtwPkts = s.tOutBtwPkts := by
  unfold endOfMessage
  split
  · cases s.longMsg <;> exact ⟨rfl,rfl⟩
  · exact ⟨rfl,rfl⟩

private theorem stored_endOfMessage {s : SafeSock} {id : MsgID}
    (h : ∀ x ∈ s.longMsg, x.msgID ≠ id) :
    s.endOfMessage.2.stored id = s.stored id := by
  unfold endOfMessage
  split
  · cases hlong : s.longMsg with
    | none => rfl
    | some x =>
      have hx := h x hlong
      dsimp only [stored]
      rw [Function.update_apply]
      split
      · next hidx => rw [filter_eraseP hx,hidx]
      · rfl
  · rfl

theorem mem_endOfMessage {s : SafeSock} {b : Nat} {x : InMsg}
    (h : x ∈ s.endOfMessage.2.inMsgs b) :
    x ∈ s.inMsgs b := by
  unfold endOfMessage at h
  split at h
  · cases hlong : s.longMsg with
    | none =>
      rw [hlong] at h
      exact h
    | some y =>
      rw [hlong] at h
      dsimp only at h
      rw [Function.update_apply] at h
      split at h
      · next hb =>
        rw [hb]
        exact List.mem_of_mem_eraseP h
      · exact h
  · exact h

section Fragment

variable {s : SafeSock} {last : Bool} {seq : Nat} {id : MsgID} {data : List Byte} {now : Int}

private theorem handleFragment_new (hintime : ∀ x ∈ s.inMsgs (index id), now - x.lastTime ≤
    s.tOutBtwPkts)
    (h : s.stored id = []) :
    s.handleFragment last seq id data now = (false,{ s with
      inMsgs := Function.update s.inMsgs (index id)
        (s.inMsgs (index id) ++ [InMsg.new id last seq data s.sec now]) }) := by
  have hnone : ∀ x ∈ s.inMsgs (index id), x.msgID ≠ id := by
    intro x hx heq
    have hmem : x ∈ s.stored id := List.mem_filter.mpr ⟨hx,by simpa using heq⟩
    rw [h] at hmem
    cases hmem
  have hdrop : (s.inMsgs (index id)).dropWhile (·.msgID ≠ id) = [] := by
    rw [List.dropWhile_eq_nil_iff]
    simpa using hnone
  have htake : (s.inMsgs (index id)).takeWhile (·.msgID ≠ id) = s.inMsgs (index id) := by
    rw [List.takeWhile_eq_self_iff]
    simpa using hnone
  have hfilter : (s.inMsgs (index id)).filter (now - ·.lastTime ≤ s.tOutBtwPkts) =
      s.inMsgs (index id) := by
    rw [List.filter_eq_self]
    simpa using hintime
  unfold handleFragment
  simp only [hdrop,htake,hfilter]

private theorem handleFragment_found
    (hintime : ∀ x ∈ s.inMsgs (index id), now - x.lastTime ≤ s.tOutBtwPkts)
    {x : InMsg} (h : s.stored id = [x]) : ∃ before after,
      s.inMsgs (index id) = before ++ x :: after ∧ x.msgID = id ∧
      before.filter (·.msgID = id) = [] ∧ after.filter (·.msgID = id) = [] ∧
      ∀ r, r = InMsg.addPacket (if seq = 0 then { x with sec := s.sec } else x) last seq data now →
        s.handleFragment last seq id data now = (r.1,{ s with
          inMsgs := Function.update s.inMsgs (index id) (before ++ r.2 :: after)
          longMsg := if r.1 then some r.2 else s.longMsg
          msgReady := r.1 || s.msgReady }) := by
  obtain ⟨before,after,hchain,hbefore,hx,hafter⟩ := List.filter_eq_cons_iff.mp h
  have hx : x.msgID = id := by simpa using hx
  have hbefore : ∀ y ∈ before, y.msgID ≠ id := by simpa using hbefore
  refine ⟨before,after,hchain,hx,?_,hafter,?_⟩
  · rw [List.filter_eq_nil_iff]
    simpa using hbefore
  rintro r rfl
  have hdrop : (s.inMsgs (index id)).dropWhile (·.msgID ≠ id) = x :: after := by
    rw [hchain,List.dropWhile_append_of_pos (by simpa using hbefore),List.dropWhile_cons_of_neg]
    simpa using hx
  have htake : (s.inMsgs (index id)).takeWhile (·.msgID ≠ id) = before := by
    rw [hchain,List.takeWhile_append_of_pos (by simpa using hbefore),List.takeWhile_cons_of_neg,
      List.append_nil]
    simpa using hx
  have hfilter : before.filter (now - ·.lastTime ≤ s.tOutBtwPkts) = before := by
    rw [List.filter_eq_self]
    intro y hy
    simpa using hintime y (by rw [hchain]; exact List.mem_append_left _ hy)
  unfold handleFragment
  simp only [hdrop,htake,hfilter]
  cases hready : (InMsg.addPacket (if seq = 0 then { x with sec := s.sec }
    else x) last seq data now).1
  · rfl
  · rfl

end Fragment

private theorem addPacket_msgID (x : InMsg) (last : Bool) (seq : Nat) (data : List Byte)
    (now : Int) :
    (x.addPacket last seq data now).2.msgID = x.msgID := by
  unfold InMsg.addPacket
  split
  · rfl
  · dsimp only
    generalize (if last = true then seq else x.lastNo) = n
    split
    · split <;> rfl
    · rfl

private theorem stored_update (s : SafeSock) (id id' : MsgID) (chain : List InMsg) :
    stored { s with inMsgs := Function.update s.inMsgs (index id) chain } id' =
      if index id' = index id then chain.filter (·.msgID = id') else s.stored id' := by
  dsimp only [stored]
  rw [Function.update_apply]
  split <;> rfl

section

variable {s : SafeSock} {last : Bool} {seq : Nat} {id : MsgID} {data : List Byte} {now : Int}

private theorem stored_handleFragment_new
    (hintime : ∀ x ∈ s.inMsgs (index id), now - x.lastTime ≤ s.tOutBtwPkts) (h : s.stored id = []) :
    (s.handleFragment last seq id data now).2.stored id =
        [InMsg.new id last seq data s.sec now] ∧
      ∀ id', id' ≠ id → (s.handleFragment last seq id data now).2.stored id' = s.stored id' := by
  rw [handleFragment_new hintime h]
  have hchain : (s.inMsgs (index id)).filter (·.msgID = id) = [] := h
  constructor
  · rw [stored_update,if_pos rfl,List.filter_append,hchain]
    simp [InMsg.new]
  · intro id' hne
    rw [stored_update]
    split
    · next hidx =>
      rw [List.filter_append,stored,hidx]
      simp [InMsg.new,Ne.symm hne]
    · rfl

private theorem stored_handleFragment_found
    (hintime : ∀ x ∈ s.inMsgs (index id), now - x.lastTime ≤ s.tOutBtwPkts)
    {x : InMsg} (h : s.stored id = [x]) {r : Bool × InMsg}
    (hr : r = InMsg.addPacket (if seq = 0 then { x with sec := s.sec } else x) last seq data now) :
    (s.handleFragment last seq id data now).1 = r.1 ∧
      (s.handleFragment last seq id data now).2.stored id = [r.2] ∧
      (s.handleFragment last seq id data now).2.longMsg = (if r.1 then some r.2 else s.longMsg) ∧
      (s.handleFragment last seq id data now).2.msgReady = (r.1 || s.msgReady) ∧
      r.2.msgID = id ∧
      ∀ id', id' ≠ id → (s.handleFragment last seq id data now).2.stored id' = s.stored id' := by
  obtain ⟨before,after,hchain,hx,hbefore,hafter,heq⟩ := handleFragment_found hintime h
  have hid : r.2.msgID = id := by
    rw [hr,addPacket_msgID,← hx]
    split <;> rfl
  rw [heq r hr]
  refine ⟨rfl,?_,rfl,rfl,hid,?_⟩
  · show (Function.update s.inMsgs (index id) (before ++ r.2 :: after) (index id)).filter
      (·.msgID = id) = [r.2]
    rw [Function.update_self,List.filter_append,hbefore,List.filter_cons_of_pos
      (by simpa using hid),
      hafter]
    rfl
  · intro id' hne
    show (Function.update s.inMsgs (index id) (before ++ r.2 :: after) (index id')).filter
      (·.msgID = id') = s.stored id'
    rw [Function.update_apply]
    split
    · next hidx =>
      have hr' : r.2.msgID ≠ id' := fun hc => hne (hc.symm.trans hid)
      have hx' : x.msgID ≠ id' := fun hc => hne (hc.symm.trans hx)
      rw [stored,hidx,hchain,List.filter_append,List.filter_append,
        List.filter_cons_of_neg (by simpa using hr'),List.filter_cons_of_neg (by simpa using hx')]
    · rfl

end

def looking (s : SafeSock) (dgram : List Byte) (loc : Located) : SafeSock :=
  { (if s.msgReady then s.endOfMessage.2 else s) with
    dataGram := s.received dgram
    data := loc.data
    length := loc.len
    curIndex := 0
    sec := loc.sec }

private theorem closing_frame (s : SafeSock) :
    (if s.msgReady then s.endOfMessage.2 else s).dataGram = s.dataGram ∧
      (if s.msgReady then s.endOfMessage.2 else s).tOutBtwPkts = s.tOutBtwPkts := by
  split
  · exact s.endOfMessage_frame
  · exact ⟨rfl,rfl⟩

private theorem handleIncomingPacket_whole {s : SafeSock} {dgram : List Byte} {loc : Located}
    (now : Int)
    (h : getHeader (s.received dgram) dgram.length = .whole loc) (hpos : 0 < loc.len)
    (hle : loc.len ≤ safeMsgMaxPacketSize) :
    s.handleIncomingPacket dgram now = (true,{ s.looking dgram loc with msgReady := true }) := by
  have hbuf : dgram ++ (if s.msgReady then s.endOfMessage.2 else s).dataGram.drop dgram.length =
      s.received dgram := by
    rw [(closing_frame s).1]
    rfl
  unfold handleIncomingPacket
  simp only [hbuf,h,Header.loc]
  rw [if_neg (by omega)]
  rfl

private theorem handleIncomingPacket_fragment {s : SafeSock} {dgram : List Byte} {loc : Located}
    {last : Bool} {seq : Nat} {id : MsgID} (now : Int)
    (h : getHeader (s.received dgram) dgram.length = .fragment last seq id loc)
    (hpos : 0 < loc.len) (hle : loc.len ≤ safeMsgMaxPacketSize) :
    s.handleIncomingPacket dgram now = (s.looking dgram loc).handleFragment last seq id
      (bytesAt (s.received dgram) loc.data loc.len.toNat) now := by
  have hbuf : dgram ++ (if s.msgReady then s.endOfMessage.2 else s).dataGram.drop dgram.length =
      s.received dgram := by
    rw [(closing_frame s).1]
    rfl
  unfold handleIncomingPacket
  simp only [hbuf,h,Header.loc]
  rw [if_neg (by omega)]
  rfl

end SafeSock

theorem length_longDatagrams (id : MsgID) (s : Nat) (l : List (List Byte)) :
    (longDatagrams id s l).length = l.length := by
  induction l generalizing s with
  | nil => rfl
  | cons d more ih => rw [longDatagrams,List.length_cons,List.length_cons,ih]

theorem length_wireOf (M : Message) (frags : List (List Byte)) :
    (wireOf M frags).length = frags.length := by
  match frags with
  | [] => rfl
  | [f] => rfl
  | f :: g :: frags => rw [wireOf,length_longDatagrams]; rfl

variable {M : Message} {frags : List (List Byte)}

private theorem exists_sec (hfrags : Fragments M frags) {i : Nat}
    (hi : i < frags.length) : ∃ sec, (sec = M.sec ∧ i = 0 ∨ sec = [] ∧ i ≠ 0) ∧
      sec.length + (InMsg.frag frags i).length ≤ usablePacketSize ∧
      ∀ hd tl, frags = hd :: tl → ((M.sec ++ hd) :: tl)[i]? = some (sec ++ InMsg.frag frags i) := by
  cases frags with
  | nil => cases hi
  | cons f frags =>
    cases i with
    | zero =>
      refine ⟨M.sec,.inl ⟨rfl,rfl⟩,hfrags.head f rfl,?_⟩
      rintro hd tl ⟨⟩
      rfl
    | succ i =>
      have hlt : i < frags.length := Nat.lt_of_succ_lt_succ hi
      have hfrag : InMsg.frag (f :: frags) (i + 1) = frags[i] := by
        rw [InMsg.frag,List.getD_cons_succ,List.getD_eq_getElem _ _ hlt]
      refine ⟨[],.inr ⟨rfl,Nat.succ_ne_zero i⟩,?_,?_⟩
      · rw [hfrag,List.length_nil,Nat.zero_add]
        exact hfrags.tail _ (List.getElem_mem hlt)
      · rintro hd tl ⟨⟩
        rw [hfrag,List.getElem?_cons_succ,List.getElem?_eq_getElem hlt]
        rfl

private theorem located_frag (hM : M.Sendable) {sec body stale pre : List Byte} {i : Nat}
    (hsec : sec = M.sec ∧ i = 0 ∨ sec = [] ∧ i ≠ 0) (hrec : (M.sec ≠ [] ∧ i = 0) ∨
      bytesAt (pre ++ (sec ++ (body ++ stale))) pre.length 4 ≠ cryptoTag) :
    ∃ loc, checkHeader (pre ++ (sec ++ (body ++ stale))) pre.length
        (sec.length + body.length : Nat) = loc ∧ loc.len = body.length ∧
      bytesAt (pre ++ (sec ++ (body ++ stale))) loc.data body.length = body := by
  apply located_data hM
  by_cases hnil : sec = []
  · right
    refine ⟨hnil,?_⟩
    rcases hrec with ⟨hne,hi⟩ | htag
    · rcases hsec with ⟨hs,-⟩ | ⟨-,hi'⟩
      · exact absurd (hs.symm.trans hnil) hne
      · exact absurd hi hi'
    · rwa [hnil,List.nil_append] at htag
  · left
    rcases hsec with ⟨hs,-⟩ | ⟨hs,-⟩
    · exact ⟨hs,hs ▸ hnil⟩
    · exact absurd hs hnil

private theorem getHeader_long (hM : M.Sendable)
    (hfrags : Fragments M frags) (hn : 2 ≤ frags.length) (hmax : frags.length ≤ 2^16) {i : Nat}
    (hi : i < frags.length) {dgram : List Byte} (hd : (wireOf M frags)[i]? = some dgram)
    (stale : List Byte) (received : Nat)
    (hrec : (M.sec ≠ [] ∧ i = 0) ∨ bytesAt (dgram ++ stale) safeMsgHeaderSize 4 ≠ cryptoTag) :
    ∃ loc, getHeader (dgram ++ stale) received =
        .fragment (decide (i = frags.length - 1)) i M.id.wire loc ∧
      loc.len = (InMsg.frag frags i).length ∧ (InMsg.frag frags i).length ≤ usablePacketSize ∧
      bytesAt (dgram ++ stale) loc.data (InMsg.frag frags i).length = InMsg.frag frags i := by
  obtain ⟨sec,hsec,hle,hget⟩ := exists_sec hfrags hi
  have hsmall : usablePacketSize < 2^16 := by decide
  have hd' : dgram = makeHeader (decide (i = frags.length - 1)) i
      (sec.length + (InMsg.frag frags i).length : Nat) M.id ++ (sec ++ InMsg.frag frags i) := by
    match frags, hn with
    | f :: g :: rest, _ =>
      have hlast : decide (i + 1 = ((M.sec ++ f) :: g :: rest).length) =
          decide (i = (f :: g :: rest).length - 1) := by
        apply decide_eq_decide.mpr
        simp only [List.length_cons]
        omega
      rw [wireOf,longDatagrams_getElem?,hget f (g :: rest) rfl,map_some,hlast,Nat.zero_add,
        List.length_append] at hd
      exact (some.inj hd).symm
  have hlen : (makeHeader (decide (i = frags.length - 1)) i
      (sec.length + (InMsg.frag frags i).length : Nat) M.id).length = safeMsgHeaderSize := rfl
  rw [hd',List.append_assoc,List.append_assoc] at hrec ⊢
  rw [getHeader_makeHeader _ _ _ _ (by omega) (by omega)]
  rw [← hlen] at hrec ⊢
  obtain ⟨loc,hloc,hloclen,hbytes⟩ := located_frag hM hsec hrec
  refine ⟨loc,by rw [hloc],hloclen,by omega,hbytes⟩

private theorem getHeader_short (hM : M.Sendable) {frag : List Byte}
    (hfrags : Fragments M [frag]) (stale : List Byte)
    (hmagic : bytesAt (M.sec ++ frag ++ stale) 0 8 ≠ safeMsgMagic)
    (hrec : M.sec ≠ [] ∨ bytesAt (M.sec ++ frag ++ stale) 0 4 ≠ cryptoTag) :
    ∃ loc, getHeader (M.sec ++ frag ++ stale) (M.sec ++ frag).length = .whole loc ∧
      loc.len = frag.length ∧ frag.length ≤ usablePacketSize ∧
      bytesAt (M.sec ++ frag ++ stale) loc.data frag.length = frag := by
  rw [getHeader,if_neg hmagic,List.append_assoc,List.length_append]
  rw [List.append_assoc] at hrec
  have hhead := hfrags.head frag rfl
  obtain ⟨loc,hloc,hlen,hbytes⟩ := @located_frag M hM M.sec frag stale [] 0 (.inl ⟨rfl,rfl⟩)
    (hrec.imp_left fun h => ⟨h,rfl⟩)
  exact ⟨loc,congrArg Header.whole hloc,hlen,by omega,hbytes⟩

/-- The messages can be sent, each in few enough packets and under its own id. -/
structure Transmittable (ms : List Message) : Prop where
  sendable : ∀ M ∈ ms, M.Sendable
  count : ∀ m, (datagramsOf ms m).length ≤ 2^16
  ids : (ms.map fun M => M.id.wire).Nodup

section

variable {ms : List Message}

structure OpenLong (ms : List Message) (s : SafeSock) (r : Receiver) (left : List Byte) (x : InMsg)
    (frags : List (List Byte)) (m : Nat) (M : Message) : Prop where
  longMsg : s.longMsg = some x
  unread : ∃ k off, x.Unread frags k off ∧ left = InMsg.left frags k off
  ne_nil : ∀ f ∈ frags, f ≠ []
  pos : 0 < frags.length
  message : ms[m]? = some M
  msgID : x.msgID = M.id.wire
  complete : r.Complete ms m

structure OpenShort (s : SafeSock) (left : List Byte) (n : Nat) : Prop where
  longMsg : s.longMsg = none
  length : s.length = n
  curIndex : s.curIndex ≤ n
  left_eq : left = bytesAt s.dataGram (s.data + s.curIndex) (n - s.curIndex)
  left_length : left.length = n - s.curIndex

structure KeptFrags (ms : List Message) (s : SafeSock) (r : Receiver) (m : Nat) (M : Message)
    (frags : List (List Byte)) : Prop where
  datagrams : datagramsOf ms m = wireOf M frags
  fragments : Fragments M frags
  stored : 2 ≤ frags.length → ¬ r.Complete ms m → s.stored M.id.wire = [] ∧ r.arrived m = ∅ ∨
    ∃ x, s.stored M.id.wire = [x] ∧ x.Gathering frags (r.arrived m)

def Kept (ms : List Message) (s : SafeSock) (r : Receiver) : Prop :=
  ∀ m M, ms[m]? = some M → ∃ frags, KeptFrags ms s r m M frags

structure Faithful (ms : List Message) (w : Reception) : Prop where
  outputs : w.outputs = w.due
  subset : ∀ m, w.receiver.arrived m ⊆ range (datagramsOf ms m).length
  kept : Kept ms w.sock w.receiver
  closed : w.receiver.opened = none → w.sock.Closed
  opened : ∀ left, w.receiver.opened = some left → w.sock.msgReady = true ∧
    ((∃ x frags m M, OpenLong ms w.sock w.receiver left x frags m M) ∨
      ∃ n, OpenShort w.sock left n)

private theorem Transmittable.exists_frags (hms : Transmittable ms) {m : Nat}
    (hm : ms[m]? = some M) : ∃ frags, datagramsOf ms m = wireOf M frags ∧ Fragments M frags := by
  obtain ⟨frags,hd,hf⟩ := datagrams_eq (hms.sendable M (List.mem_of_getElem? hm))
  refine ⟨frags,?_,hf⟩
  rw [datagramsOf,hm]
  exact congrArg (·.getD []) hd

private theorem faithful_start (hms : Transmittable ms) (dataGram : List Byte) :
    Faithful ms (Reception.start dataGram) := by
  refine ⟨rfl,?_,?_,fun _ => ⟨rfl,rfl⟩,fun left h => nomatch h⟩
  · intro m
    exact Finset.empty_subset _
  · intro m M hm
    obtain ⟨frags,hd,hf⟩ := hms.exists_frags hm
    exact ⟨frags,hd,hf,fun _ _ => .inl ⟨rfl,rfl⟩⟩

private theorem Transmittable.id_ne (hms : Transmittable ms) {m m' : Nat} {M M' : Message}
    (hne : m ≠ m')
    (hm : ms[m]? = some M) (hm' : ms[m']? = some M') : M.id.wire ≠ M'.id.wire := by
  intro heq
  have hlt : m < (ms.map fun M => M.id.wire).length := by
    rw [List.length_map]
    exact (List.getElem?_eq_some_iff.mp hm).1
  apply hne
  apply (List.getElem?_inj hlt hms.ids).mp
  rw [List.getElem?_map,List.getElem?_map,hm,hm',map_some,map_some,heq]

variable {w : Reception}

theorem Faithful.closing (hms : Transmittable ms) (h : Faithful ms w) :
    w.sock.endOfMessage.2.Closed ∧ Kept ms w.sock.endOfMessage.2 w.receiver := by
  constructor
  · apply SafeSock.closed_endOfMessage
    intro hready
    cases hopen : w.receiver.opened with
    | none => exact (h.closed hopen).longMsg
    | some left =>
      rw [(h.opened left hopen).1] at hready
      cases hready
  · intro m M hm
    obtain ⟨frags,hkept⟩ := h.kept m M hm
    refine ⟨frags,hkept.datagrams,hkept.fragments,fun hn hpart => ?_⟩
    have hstored : w.sock.endOfMessage.2.stored M.id.wire = w.sock.stored M.id.wire := by
      apply SafeSock.stored_endOfMessage
      intro x hx
      cases hopen : w.receiver.opened with
      | none =>
        rw [(h.closed hopen).longMsg] at hx
        cases hx
      | some left =>
        rcases (h.opened left hopen).2 with ⟨y,F,m0,M0,hlong⟩ | ⟨n,hshort⟩
        · obtain rfl := some.inj (hx.symm.trans hlong.longMsg)
          rw [hlong.msgID]
          apply hms.id_ne ?_ hlong.message hm
          rintro rfl
          exact hpart hlong.complete
        · rw [hshort.longMsg] at hx
          cases hx
    rw [hstored]
    exact hkept.stored hn hpart

private theorem closing_eq (s : SafeSock) :
    (if s.msgReady then s.endOfMessage.2 else s) = s.endOfMessage.2 := by
  split
  · rfl
  · next h =>
    rw [SafeSock.endOfMessage,if_neg h]

private theorem looking_frame (s : SafeSock) (dgram : List Byte) (loc : Located) :
    (s.looking dgram loc).inMsgs = s.endOfMessage.2.inMsgs ∧
      (s.looking dgram loc).longMsg = s.endOfMessage.2.longMsg ∧
      (s.looking dgram loc).msgReady = s.endOfMessage.2.msgReady ∧
      (s.looking dgram loc).tOutBtwPkts = s.tOutBtwPkts := by
  rw [SafeSock.looking,closing_eq]
  exact ⟨rfl,rfl,rfl,s.endOfMessage_frame.2⟩

private theorem complete_arrive (r : Receiver) (m i : Nat) :
    (r.arrive ms m i).Complete ms m ↔
      insert i (r.arrived m) = range (datagramsOf ms m).length := by
  unfold Receiver.arrive
  dsimp only
  split <;> simp [Receiver.Complete]

private theorem arrived_arrive (r : Receiver) (m i : Nat) :
    (r.arrive ms m i).arrived = Function.update r.arrived m (insert i (r.arrived m)) := by
  unfold Receiver.arrive
  dsimp only
  split <;> rfl

private theorem opened_arrive (r : Receiver) (m i : Nat) : (r.arrive ms m i).opened =
    if insert i (r.arrived m) = range (datagramsOf ms m).length then some (bytesOf ms m)
    else none := by
  unfold Receiver.arrive
  dsimp only
  have hiff : (⟨Function.update r.arrived m (insert i (r.arrived m)),none⟩ : Receiver).Complete
    ms m ↔
      insert i (r.arrived m) = range (datagramsOf ms m).length := by
    simp [Receiver.Complete]
  simp only [hiff]
  split <;> rfl

private theorem complete_arrive_other (r : Receiver) {m m' : Nat} (hne : m' ≠ m) (i : Nat) :
    (r.arrive ms m i).arrived m' = r.arrived m' ∧
      ((r.arrive ms m i).Complete ms m' ↔ r.Complete ms m') := by
  have h : (r.arrive ms m i).arrived m' = r.arrived m' := by
    rw [arrived_arrive,Function.update_of_ne hne]
  exact ⟨h,by rw [Receiver.Complete,Receiver.Complete,h]⟩

variable {m i : Nat}

private theorem Kept.arrive_other {s s' : SafeSock} {r : Receiver} (h : Kept ms s r)
    (hother : ∀ m' M', m' ≠ m → ms[m']? = some M' → s'.stored M'.id.wire = s.stored M'.id.wire)
    (hown : ∀ M, ms[m]? = some M → ∃ frags, KeptFrags ms s' (r.arrive ms m i) m M frags) :
    Kept ms s' (r.arrive ms m i) := by
  intro m' M' hm'
  by_cases hne : m' = m
  · subst hne
    exact hown M' hm'
  · obtain ⟨frags,hkept⟩ := h m' M' hm'
    obtain ⟨harr,hcomplete⟩ := complete_arrive_other r hne i
    refine ⟨frags,hkept.datagrams,hkept.fragments,fun hn hpart => ?_⟩
    rw [hother m' M' hne hm',harr]
    exact hkept.stored hn fun hc => hpart (hcomplete.mpr hc)

private theorem subset_arrive {r : Receiver} (h : ∀ m, r.arrived m ⊆ range
    (datagramsOf ms m).length) (hi : i < (datagramsOf ms m).length) (m' : Nat) :
    (r.arrive ms m i).arrived m' ⊆ range (datagramsOf ms m').length := by
  rw [arrived_arrive,Function.update_apply]
  split
  · next heq =>
    subst heq
    exact Finset.insert_subset (Finset.mem_range.mpr hi) (h m')
  · exact h m'

structure FragmentDone (s' : SafeSock) (ready : Bool) (M : Message) (frags : List (List Byte))
    (arrived : Finset Nat) : Prop where
  ready : ready = decide (arrived = range frags.length)
  part : arrived ≠ range frags.length → s'.Closed ∧
    ∃ x, s'.stored M.id.wire = [x] ∧ x.Gathering frags arrived
  whole : arrived = range frags.length → s'.msgReady = true ∧
    ∃ x, s'.longMsg = some x ∧ x.Unread frags 0 0 ∧ x.msgID = M.id.wire

private theorem fragmentDone {s : SafeSock} (hclosed : s.Closed)
    {arrived : Finset Nat} (hne : ∀ f ∈ frags, f ≠ []) (hn : 2 ≤ frags.length)
    (hpart : arrived ≠ range frags.length) {i : Nat} (hi : i < frags.length) {now : Int}
    (hintime : ∀ x ∈ s.inMsgs (SafeSock.index M.id.wire), now - x.lastTime ≤ s.tOutBtwPkts)
    (hstored : s.stored M.id.wire = [] ∧ arrived = ∅ ∨
      ∃ x, s.stored M.id.wire = [x] ∧ x.Gathering frags arrived) :
    ∀ r, r = s.handleFragment (decide (i = frags.length - 1)) i M.id.wire
        (InMsg.frag frags i) now →
      FragmentDone r.2 r.1 M frags (insert i arrived) ∧
        ∀ id', id' ≠ M.id.wire → r.2.stored id' = s.stored id' := by
  rintro r rfl
  rcases hstored with ⟨hnil,rfl⟩ | ⟨x,hx,hgather⟩
  · obtain ⟨h1,h2⟩ := SafeSock.stored_handleFragment_new hintime hnil
    have hone : (insert i ∅ : Finset Nat) ≠ range frags.length := by
      intro hc
      have hcard := congrArg Finset.card hc
      rw [Finset.card_range] at hcard
      simp at hcard
      omega
    rw [SafeSock.handleFragment_new hintime hnil] at h1 h2 ⊢
    refine ⟨⟨?_,?_,fun hc => absurd hc hone⟩,h2⟩
    · exact (decide_eq_false hone).symm
    · intro _
      exact ⟨⟨hclosed.msgReady,hclosed.longMsg⟩,_,h1,InMsg.gathering_new hi rfl⟩
  · have hgather' : InMsg.Gathering frags arrived (if i = 0 then { x with sec := s.sec }
      else x) := by
      split
      · exact ⟨hgather.subset,hgather.nonempty,hgather.dEntry,hgather.msgLen,hgather.lastNo,
          hgather.received,hgather.passed,hgather.headDir,hgather.dirs,hgather.dirs_le⟩
      · exact hgather
    obtain ⟨hready,hpart',hwhole⟩ := hgather'.addPacket hne hn hpart hi rfl now
    obtain ⟨h1,h2,h3,h4,h5,h6⟩ := SafeSock.stored_handleFragment_found hintime hx rfl
    refine ⟨⟨h1.trans hready,?_,?_⟩,h6⟩
    · intro hne'
      rw [hready,decide_eq_false hne'] at h3 h4
      exact ⟨⟨h4.trans hclosed.msgReady,h3.trans hclosed.longMsg⟩,_,h2,hpart' hne'⟩
    · intro heq
      rw [hready,decide_eq_true heq] at h3 h4
      exact ⟨h4,_,h3,hwhole heq,h5⟩

private theorem Faithful.arrive_long (hms : Transmittable ms) (h : Faithful ms w) {now : Int}
    (hadm : Reception.Admits ms w (.arrive m i now))
    (hm : ms[m]? = some M)
    (hkept : KeptFrags ms w.sock.endOfMessage.2 w.receiver m M frags) (hn : 2 ≤ frags.length) :
    ∃ w', Reception.step ms w (.arrive m i now) = some w' ∧ Faithful ms w' := by
  obtain ⟨hi,hpart,hintime,hrec⟩ := hadm
  obtain ⟨hclosed,hall⟩ := h.closing hms
  have hM := hms.sendable M (List.mem_of_getElem? hm)
  have hcount : (datagramsOf ms m).length = frags.length := by
    rw [hkept.datagrams,length_wireOf]
  have hmax := hms.count m
  rw [hcount] at hi hmax
  -- the datagram is found in the buffer
  obtain ⟨dgram,hd⟩ : ∃ dgram, (datagramsOf ms m)[i]? = some dgram :=
    ⟨_,List.getElem?_eq_getElem (by omega)⟩
  have hgetD : (datagramsOf ms m).getD i [] = dgram := by
    rw [List.getD_eq_getElem?_getD,hd]
    rfl
  have hkeyed : Reception.Keyed ms m i ↔ M.sec ≠ [] ∧ i = 0 := by
    rw [Reception.Keyed,hm]
    rfl
  rw [hgetD] at hrec
  have hd' : (wireOf M frags)[i]? = some dgram := by rw [← hkept.datagrams,hd]
  obtain ⟨loc,hheader,hlen,hle,hbytes⟩ := getHeader_long hM hkept.fragments hn hmax hi hd'
    (w.sock.dataGram.drop dgram.length) dgram.length
    ((hrec.2 (by omega)).imp_left hkeyed.mp)
  have hpos := List.length_pos_of_ne_nil (InMsg.frag_ne_nil hkept.fragments.ne_nil hi)
  have hsmall : usablePacketSize ≤ safeMsgMaxPacketSize := by decide
  have hhandle := SafeSock.handleIncomingPacket_fragment now hheader (by omega) (by omega)
  have hdata : bytesAt (w.sock.received dgram) loc.data loc.len.toNat =
      InMsg.frag frags i := by
    rw [hlen,Int.toNat_natCast]
    exact hbytes
  rw [hdata] at hhandle
  -- and put into its chain
  obtain ⟨hf1,hf2,hf3,hf4⟩ := looking_frame w.sock dgram loc
  have hlooking : (w.sock.looking dgram loc).Closed := ⟨hf3.trans hclosed.msgReady,
    hf2.trans hclosed.longMsg⟩
  have hintime' : ∀ x ∈ (w.sock.looking dgram loc).inMsgs (SafeSock.index M.id.wire),
      now - x.lastTime ≤ (w.sock.looking dgram loc).tOutBtwPkts := by
    intro x hx
    rw [hf1] at hx
    rw [hf4]
    apply hintime
    rw [hm]
    exact SafeSock.mem_endOfMessage hx
  have hstored : ∀ id, (w.sock.looking dgram loc).stored id = w.sock.endOfMessage.2.stored id := by
    intro id
    rw [SafeSock.stored,SafeSock.stored,hf1]
  have hpart' : w.receiver.arrived m ≠ range frags.length := by
    rw [← hcount]
    exact hpart
  obtain ⟨hdone,hother⟩ := fragmentDone hlooking hkept.fragments.ne_nil hn hpart' hi hintime'
    (by rw [hstored]; exact hkept.stored hn hpart) _ rfl
  rw [← hhandle] at hdone hother
  have hopened : (w.receiver.arrive ms m i).opened = _ := opened_arrive w.receiver m i
  rw [hcount] at hopened
  refine ⟨⟨(w.sock.handleIncomingPacket dgram now).2,w.receiver.arrive ms m i,
    w.outputs ++ [.arrived (w.sock.handleIncomingPacket dgram now).1],
    w.due ++ [.arrived (w.receiver.arrive ms m i).opened.isSome]⟩,?_,?_⟩
  · rw [Reception.step,Reception.answer,hd]
    rfl
  constructor
  · show w.outputs ++ _ = w.due ++ _
    rw [h.outputs,hdone.ready,hopened]
    by_cases hc : insert i (w.receiver.arrived m) = range frags.length
    · simp [hc]
    · simp [hc]
  · exact subset_arrive h.subset (by omega)
  · apply hall.arrive_other
    · intro m' M' hne hm'
      rw [hother _ (hms.id_ne hne hm' hm),hstored]
    · intro M' hM'
      obtain rfl := some.inj (hm.symm.trans hM')
      refine ⟨frags,hkept.datagrams,hkept.fragments,fun _ hp => .inr ?_⟩
      rw [complete_arrive,hcount] at hp
      rw [arrived_arrive,Function.update_self]
      exact (hdone.part hp).2
  · intro hnone
    apply (hdone.part ?_).1
    intro hc
    rw [hopened,if_pos hc] at hnone
    cases hnone
  · intro left hleft
    dsimp only at hleft
    rw [hopened] at hleft
    split at hleft
    · next hc =>
      obtain rfl := some.inj hleft
      obtain ⟨hready,x,hlong,hunread,hid⟩ := hdone.whole hc
      refine ⟨hready,.inl ⟨x,frags,m,M,hlong,⟨0,0,hunread,?_⟩,hkept.fragments.ne_nil,
        by omega,hm,hid,?_⟩⟩
      · rw [bytesOf,hm,InMsg.left,List.drop_zero,List.drop_zero,hkept.fragments.flatten]
        rfl
      · rw [complete_arrive,hcount]
        exact hc
    · cases hleft

private theorem Faithful.arrive_short (hms : Transmittable ms) (h : Faithful ms w) {now : Int}
    (hadm : Reception.Admits ms w (.arrive m i now))
    (hm : ms[m]? = some M) {frag : List Byte}
    (hkept : KeptFrags ms w.sock.endOfMessage.2 w.receiver m M [frag]) :
    ∃ w', Reception.step ms w (.arrive m i now) = some w' ∧ Faithful ms w' := by
  obtain ⟨hi,hpart,-,hrec⟩ := hadm
  obtain ⟨hclosed,hall⟩ := h.closing hms
  have hM := hms.sendable M (List.mem_of_getElem? hm)
  have hdatagrams : datagramsOf ms m = [M.sec ++ frag] := hkept.datagrams
  have hcount : (datagramsOf ms m).length = 1 := by rw [hdatagrams]; rfl
  obtain rfl : i = 0 := by omega
  have hkeyed : Reception.Keyed ms m 0 ↔ M.sec ≠ [] := by
    rw [Reception.Keyed,hm]
    exact and_iff_left rfl
  have hgetD : (datagramsOf ms m).getD 0 [] = M.sec ++ frag := by rw [hdatagrams]; rfl
  rw [hgetD] at hrec
  obtain ⟨hmagic,htag⟩ := hrec.1 hcount
  obtain ⟨loc,hheader,hlen,hle,hbytes⟩ := getHeader_short hM hkept.fragments
    (w.sock.dataGram.drop (M.sec ++ frag).length) hmagic (htag.imp_left hkeyed.mp)
  have hpos := List.length_pos_of_ne_nil (hkept.fragments.ne_nil frag List.mem_cons_self)
  have hsmall : usablePacketSize ≤ safeMsgMaxPacketSize := by decide
  have hhandle := SafeSock.handleIncomingPacket_whole now hheader (by omega) (by omega)
  obtain ⟨hf1,hf2,hf3,hf4⟩ := looking_frame w.sock (M.sec ++ frag) loc
  have hone : insert 0 (w.receiver.arrived m) = range (datagramsOf ms m).length := by
    have hsub := h.subset m
    apply Finset.Subset.antisymm
    · exact Finset.insert_subset (Finset.mem_range.mpr hi) hsub
    · intro j hj
      rw [Finset.mem_range] at hj
      obtain rfl : j = 0 := by omega
      exact Finset.mem_insert_self _ _
  have hopened : (w.receiver.arrive ms m 0).opened = some (bytesOf ms m) := by
    rw [opened_arrive,if_pos hone]
  have hbytesOf : bytesOf ms m = frag := by
    rw [bytesOf,hm]
    show M.bytes = frag
    rw [← hkept.fragments.flatten,List.flatten_singleton]
  refine ⟨⟨(w.sock.handleIncomingPacket (M.sec ++ frag) now).2,w.receiver.arrive ms m 0,
    w.outputs ++ [.arrived (w.sock.handleIncomingPacket (M.sec ++ frag) now).1],
    w.due ++ [.arrived (w.receiver.arrive ms m 0).opened.isSome]⟩,?_,?_⟩
  · rw [Reception.step,Reception.answer,hdatagrams]
    rfl
  rw [hhandle]
  constructor
  · show w.outputs ++ _ = w.due ++ _
    rw [h.outputs,hopened]
    rfl
  · exact subset_arrive h.subset hi
  · apply hall.arrive_other
    · intro m' M' _ _
      show ((w.sock.looking (M.sec ++ frag) loc).inMsgs _).filter _ = _
      rw [hf1]
      rfl
    · intro M' hM'
      obtain rfl := some.inj (hm.symm.trans hM')
      exact ⟨[frag],hkept.datagrams,hkept.fragments,fun hn => absurd hn (by simp)⟩
  · intro hnone
    dsimp only at hnone
    rw [hopened] at hnone
    cases hnone
  · intro left hleft
    dsimp only at hleft
    rw [hopened,hbytesOf] at hleft
    obtain rfl := some.inj hleft
    refine ⟨rfl,.inr ⟨frag.length,hf2.trans hclosed.longMsg,hlen,Nat.zero_le _,?_,?_⟩⟩
    · exact hbytes.symm
    · rfl

private theorem Faithful.arrive (hms : Transmittable ms) (h : Faithful ms w) {now : Int}
    (hadm : Reception.Admits ms w (.arrive m i now)) :
    ∃ w', Reception.step ms w (.arrive m i now) = some w' ∧ Faithful ms w' := by
  cases hm : ms[m]? with
  | none =>
    have hi := hadm.1
    rw [datagramsOf,hm] at hi
    cases hi
  | some M =>
    obtain ⟨frags,hkept⟩ := (h.closing hms).2 m M hm
    match frags, hkept with
    | [], hkept =>
      have hi := hadm.1
      rw [hkept.datagrams] at hi
      cases hi
    | [frag], hkept => exact h.arrive_short hms hadm hm hkept
    | _ :: _ :: _, hkept => exact h.arrive_long hms hadm hm hkept (by simp)

theorem Faithful.endOfMessage (h : Faithful ms w) :
    w.sock.endOfMessage.1 = (w.receiver.opened.getD []).isEmpty := by
  unfold SafeSock.endOfMessage
  cases hopen : w.receiver.opened with
  | none =>
    rw [(h.closed hopen).msgReady]
    rfl
  | some left =>
    obtain ⟨hready,hleft⟩ := h.opened left hopen
    rw [hready]
    rcases hleft with ⟨x,frags,m,M,hlong⟩ | ⟨n,hshort⟩
    · obtain ⟨k,off,hunread,rfl⟩ := hlong.unread
      rw [hlong.longMsg]
      show x.consumed = (InMsg.left frags k off).isEmpty
      have hiff := hunread.consumed_iff
      cases hc : x.consumed with
      | false =>
        have hne := hiff.mp hc
        cases hl : InMsg.left frags k off with
        | nil => exact absurd hl hne
        | cons b l => rfl
      | true =>
        have hnil : InMsg.left frags k off = [] := by
          by_contra hne
          rw [hiff.mpr hne] at hc
          cases hc
        rw [hnil]
        rfl
    · rw [hshort.longMsg]
      show (((w.sock.curIndex : Nat) : Int) == w.sock.length) = left.isEmpty
      have hlen := hshort.left_length
      have hcur := hshort.curIndex
      rw [hshort.length,Bool.eq_iff_iff,beq_iff_eq,List.isEmpty_iff,← List.length_eq_zero_iff]
      omega

theorem Faithful.close (hms : Transmittable ms) (h : Faithful ms w) :
    ∃ w', Reception.step ms w .close = some w' ∧ Faithful ms w' := by
  obtain ⟨hclosed,hall⟩ := h.closing hms
  refine ⟨_,rfl,?_,h.subset,?_,fun _ => hclosed,fun left hleft => nomatch hleft⟩
  · show w.outputs ++ [.closed w.sock.endOfMessage.1] =
      w.due ++ [.closed (w.receiver.opened.getD []).isEmpty]
    rw [h.outputs,h.endOfMessage]
  · intro m M hm
    obtain ⟨frags,hkept⟩ := hall m M hm
    exact ⟨frags,hkept.datagrams,hkept.fragments,hkept.stored⟩

theorem OpenShort.read {s : SafeSock} {left : List Byte} {n : Nat} (h : OpenShort s left n)
    (op : Read) : ∃ s', s.readShort op = ((flatRecv left op).1,s') ∧
      OpenShort s' (flatRecv left op).2 n ∧ s'.inMsgs = s.inMsgs ∧ s'.msgReady = s.msgReady := by
  have hlen := h.left_length
  have hcur := h.curIndex
  have hlength := h.length
  have htake : ∀ k, k ≤ left.length → bytesAt s.dataGram (s.data + s.curIndex) k = left.take k := by
    intro k hk
    rw [h.left_eq,bytesAt,bytesAt,List.take_take,Nat.min_eq_left (by omega)]
  have hskip : ∀ k, k ≤ left.length →
      OpenShort { s with curIndex := s.curIndex + k } (left.drop k) n := by
    intro k hk
    refine ⟨h.longMsg,h.length,by dsimp only; omega,?_,?_⟩
    · rw [h.left_eq,bytesAt,bytesAt,List.drop_take,List.drop_drop]
      dsimp only
      rw [Nat.add_assoc,Nat.sub_sub]
    · rw [List.length_drop]
      dsimp only
      omega
  cases op with
  | bytes size =>
    rw [SafeSock.readShort,flatRecv]
    by_cases hsize : size ≤ left.length
    · rw [if_neg (by omega),if_pos hsize,htake size hsize]
      exact ⟨_,rfl,hskip size hsize,rfl,rfl⟩
    · rw [if_pos (by omega),if_neg hsize]
      exact ⟨_,rfl,h,rfl,rfl⟩
  | ptr delim =>
    have hleft : bytesAt s.dataGram (s.data + s.curIndex) (s.length - s.curIndex).toNat = left := by
      rw [h.left_eq,h.length]
      congr 1
      omega
    rw [SafeSock.readShort,hleft,flatRecv,flatPtr]
    dsimp only
    cases hidx : left.idxOf? delim with
    | none => exact ⟨_,rfl,h,rfl,rfl⟩
    | some i =>
      obtain ⟨hlt,-⟩ := List.idxOf?_eq_some_iff.mp hidx
      exact ⟨_,rfl,hskip (i + 1) hlt,rfl,rfl⟩
  | peek =>
    rw [SafeSock.readShort,flatRecv]
    cases hl : left with
    | nil =>
      rw [hl,List.length_nil] at hlen
      rw [if_pos (by omega)]
      exact ⟨_,rfl,hl ▸ h,rfl,rfl⟩
    | cons b l =>
      rw [hl,List.length_cons] at hlen
      rw [if_neg (by omega)]
      refine ⟨_,?_,hl ▸ h,rfl,rfl⟩
      have hhead : (s.dataGram.drop (s.data + s.curIndex)).head? = some b := by
        have hone := htake 1 (by rw [hl]; simp)
        rw [hl,bytesAt] at hone
        cases hdrop : s.dataGram.drop (s.data + s.curIndex) with
        | nil =>
          rw [hdrop] at hone
          cases hone
        | cons c rest =>
          rw [hdrop] at hone
          exact congrArg List.head? hone
      rw [List.getD_eq_getElem?_getD,← List.head?_drop,hhead]
      rfl

private theorem step_of_answer {e : Happening} {out due : Output} {s' : SafeSock}
    {r' : Receiver} (hanswer : Reception.answer ms w.sock e = some (out,s'))
    (hreceiver : w.receiver.step ms e = (due,r')) :
    Reception.step ms w e = some ⟨s',r',w.outputs ++ [out],w.due ++ [due]⟩ := by
  rw [Reception.step,hanswer,hreceiver]
  rfl

theorem Faithful.read (h : Faithful ms w) {op : Read} (hadm : Reception.Admits ms w (.read op)) :
    ∃ w', Reception.step ms w (.read op) = some w' ∧ Faithful ms w' := by
  obtain ⟨hsome,hwithin⟩ := hadm
  obtain ⟨left,hopen⟩ := Option.isSome_iff_exists.mp hsome
  obtain ⟨hready,hleft⟩ := h.opened left hopen
  have hkept : ∀ s' : SafeSock, s'.inMsgs = w.sock.inMsgs → ∀ r' : Receiver,
      r'.arrived = w.receiver.arrived → Kept ms s' r' := by
    intro s' hs' r' hr' m M hm
    obtain ⟨frags,hk⟩ := h.kept m M hm
    refine ⟨frags,hk.datagrams,hk.fragments,?_⟩
    rw [SafeSock.stored,hs',Receiver.Complete,hr']
    exact hk.stored
  have hreceiver : w.receiver.step ms (.read op) = (.got (flatRecv left op).1,
      { w.receiver with opened := some (flatRecv left op).2 }) := by
    rw [Receiver.step,hopen]
    rfl
  rcases hleft with ⟨x,frags,m,M,hlong⟩ | ⟨n,hshort⟩
  · obtain ⟨k,off,hunread,rfl⟩ := hlong.unread
    obtain ⟨x',k',off',hread,hunread',hleft'⟩ := hunread.readLong hlong.ne_nil hlong.pos
      (hwithin x hlong.longMsg)
    have hid := InMsg.readLong_msgID hread
    have hanswer : Reception.answer ms w.sock (.read op) =
        some (.got (flatRecv (InMsg.left frags k off) op).1,
          { w.sock with longMsg := some x' }) := by
      rw [Reception.answer,SafeSock.read,hlong.longMsg]
      dsimp only
      rw [hread]
      rfl
    refine ⟨_,step_of_answer hanswer hreceiver,?_⟩
    refine ⟨?_,h.subset,hkept _ ?_ _ ?_,(fun hc => nomatch hc),?_⟩
    · show w.outputs ++ _ = w.due ++ _
      rw [h.outputs]
    · rfl
    · rfl
    · intro left hl
      obtain rfl := some.inj hl
      exact ⟨hready,.inl ⟨x',frags,m,M,rfl,⟨k',off',hunread',hleft'.symm⟩,hlong.ne_nil,hlong.pos,
        hlong.message,hid.trans hlong.msgID,hlong.complete⟩⟩
  · obtain ⟨s',hread,hshort',hinMsgs,hready'⟩ := hshort.read op
    have hanswer : Reception.answer ms w.sock (.read op) = some (.got (flatRecv left op).1,s') := by
      rw [Reception.answer,SafeSock.read,hshort.longMsg]
      dsimp only
      rw [hread]
      rfl
    refine ⟨_,step_of_answer hanswer hreceiver,?_⟩
    refine ⟨?_,h.subset,hkept _ hinMsgs _ ?_,(fun hc => nomatch hc),?_⟩
    · show w.outputs ++ _ = w.due ++ _
      rw [h.outputs]
    · rfl
    · intro left' hl
      obtain rfl := some.inj hl
      exact ⟨hready'.trans hready,.inr ⟨n,hshort'⟩⟩

theorem Faithful.step (hms : Transmittable ms) (h : Faithful ms w) {e : Happening}
    (hadm : Reception.Admits ms w e) : ∃ w', Reception.step ms w e = some w' ∧ Faithful ms w' := by
  cases e with
  | arrive m i now => exact h.arrive hms hadm
  | read op => exact h.read hadm
  | close => exact h.close hms

/-- As long as no datagram is mistaken and nothing is looked for behind the end of a message, the
socket answers as the receiver. -/
theorem reassembly_delivers (hms : Transmittable ms) (dataGram : List Byte) {es : List Happening}
    (hok : Along (Reception.step ms) (Reception.Admits ms) (Reception.start dataGram) es) :
    ∃ w, run (Reception.step ms) (Reception.start dataGram) es = some w ∧ w.outputs = w.due := by
  have hrun : ∀ w, Faithful ms w → Along (Reception.step ms) (Reception.Admits ms) w es →
      ∃ w', run (Reception.step ms) w es = some w' ∧ Faithful ms w' := by
    clear hok
    induction es with
    | nil => exact fun w h _ => ⟨w,rfl,h⟩
    | cons e es ih =>
      intro w h hok
      obtain ⟨w1,hw1,h1⟩ := h.step hms hok.1
      obtain ⟨w2,hw2,h2⟩ := ih w1 h1 (hok.2 w1 hw1)
      refine ⟨w2,?_,h2⟩
      rw [run,hw1]
      exact hw2
  obtain ⟨w,hw,h⟩ := hrun _ (faithful_start hms dataGram) hok
  exact ⟨w,hw,h.outputs⟩

end

def sampleMessages : List Message :=
  [⟨⟨1,2,3,4⟩,KeyIds.none,none,[List.replicate 976 7,[1,2]]⟩,
    ⟨⟨1,2,3,5⟩,⟨none,some [107]⟩,none,[[5],[6]]⟩]

private theorem transmittable_sample : Transmittable sampleMessages := by
  constructor
  · intro M hM
    rcases List.mem_cons.mp hM with rfl | hM
    · exact ⟨(fun id hid => nomatch hid),(fun id hid => nomatch hid),by decide⟩
    · obtain rfl := List.mem_singleton.mp hM
      refine ⟨(fun id hid => nomatch hid),?_,by decide⟩
      rintro id ⟨⟩
      decide
  · intro m
    match m with
    | 0 => decide +kernel
    | 1 => decide
    | m + 2 =>
      have hnone : datagramsOf sampleMessages (m + 2) = [] := rfl
      rw [hnone]
      decide
  · decide

def sampleHappenings : List Happening :=
  [.arrive 0 1 0,.arrive 1 0 1,.read (.bytes 1),.read .peek,.close,.arrive 0 1 5,.arrive 0 0 6,
    .read (.bytes 976),.read (.ptr 1),.read (.bytes 2),.read (.bytes 1),.close]

theorem reassembly_delivers_sample :
    ∃ w, run (Reception.step sampleMessages) (Reception.start []) sampleHappenings = some w ∧
      w.outputs = w.due :=
  reassembly_delivers transmittable_sample [] (by decide +kernel)

def taggedMessage : Message :=
  ⟨⟨1,2,3,4⟩,KeyIds.none,none,[cryptoTag ++ [0,0,0,0,0,0,1,2]]⟩

/-- The beginning of a message is taken for a security header, and a look at the next byte behind
the end of a long message does not answer. -/
theorem reassembly_fails :
    (∃ w, run (Reception.step [taggedMessage]) (Reception.start [])
      [.arrive 0 0 0,.read (.bytes 1)] = some w ∧
        w.outputs = [.arrived true,.got ⟨1,[1]⟩] ∧ w.due = [.arrived true,.got ⟨1,[67]⟩]) ∧
      run (Reception.step sampleMessages) (Reception.start [])
        [.arrive 0 0 0,.arrive 0 1 0,.read (.bytes 978),.read .peek] = none := by
  refine ⟨⟨_,rfl,?_,?_⟩,?_⟩
  · decide
  · decide
  · apply Option.isNone_iff_eq_none.mp
    decide +kernel

end Condor.Io
