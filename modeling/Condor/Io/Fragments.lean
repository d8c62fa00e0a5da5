import Mathlib.Data.List.GetD
import Condor.Io.SafeSock

/-!
# The datagrams of a message

What `putn` and `sendMsg` make of a message, and what `getHeader` makes of its datagrams in a buffer
that still holds the end of an earlier one.
-/

namespace Condor.Io

open List

structure Message where
  id : MsgID
  keys : KeyIds
  mac : Option (List Byte)
  puts : List (List Byte)

namespace Message

def bytes (m : Message) : List Byte := m.puts.flatten

def datagrams (m : Message) : Option (List (List Byte)) :=
  ((OutMsg.new m.keys).putAll m.puts).map fun out => out.sendMsg m.id m.mac

def sec (m : Message) : List Byte := secHeader m.keys m.mac

/-- The keys have names, a digest comes with its MAC, and the security header leaves room in the
first packet. -/
structure Sendable (m : Message) : Prop where
  md : ∀ id ∈ m.keys.md, id ≠ [] ∧ ∃ mac, m.mac = some mac ∧ mac.length = macSize
  enc : ∀ id ∈ m.keys.enc, id ≠ []
  space : m.keys.space < usablePacketSize

end Message

structure Filled (m : OutMsg) (all : List Byte) : Prop where
  full : ∀ p ∈ m.packets, p.length = usablePacketSize
  last_le : m.last.length ≤ usablePacketSize
  last_ne : m.packets ≠ [] → m.last ≠ []
  all_eq : m.packets.flatten ++ m.last = all

private theorem putn_spec {fuel : Nat} {m : OutMsg} {all data : List Byte} (h : Filled m all)
    (hfuel : data.length ≤ fuel) :
    ∃ m', m.putn fuel data = some m' ∧ m'.keys = m.keys ∧ Filled m' (all ++ data) := by
  induction fuel generalizing m all data with
  | zero =>
    obtain rfl : data = [] := eq_nil_of_length_eq_zero (by omega)
    exact ⟨m,by simp [OutMsg.putn],rfl,by simpa using h⟩
  | succ fuel ih =>
    cases data with
    | nil => exact ⟨m,by simp [OutMsg.putn],rfl,by simpa using h⟩
    | cons b data =>
      obtain ⟨out,hout⟩ : ∃ out, out = if m.last.length = usablePacketSize then
        { m with packets := m.packets ++ [m.last], last := [] } else m := ⟨_,rfl⟩
      have hnext : out.keys = m.keys ∧ (∀ p ∈ out.packets, p.length = usablePacketSize) ∧
          out.last.length < usablePacketSize ∧ out.packets.flatten ++ out.last = all := by
        rw [hout]
        split
        · next hfull =>
          refine ⟨rfl,?_,(by decide : 0 < usablePacketSize),by simp [h.all_eq]⟩
          intro p hp
          rcases List.mem_append.mp hp with hp | hp
          · exact h.full p hp
          · rw [List.mem_singleton.mp hp,hfull]
        · next hfull => exact ⟨rfl,h.full,by have := h.last_le; omega,h.all_eq⟩
      obtain ⟨hkeys,hfull,hroom,hall⟩ := hnext
      obtain ⟨left,hleft⟩ : ∃ left, left = usablePacketSize - out.last.length := ⟨_,rfl⟩
      have hfilled : Filled { out with last := out.last ++ (b :: data).take left }
          (all ++ (b :: data).take left) := by
        refine ⟨hfull,?_,?_,?_⟩
        · rw [length_append,length_take]
          omega
        · intro _ hnil
          have hpos : 0 < left := by omega
          obtain ⟨l,rfl⟩ : ∃ l, left = l + 1 := ⟨left - 1,by omega⟩
          simp at hnil
        · rw [← append_assoc,hall]
      have hless : ((b :: data).drop left).length ≤ fuel := by
        rw [length_drop]
        omega
      obtain ⟨m',hm',hk,hf⟩ := ih hfilled hless
      refine ⟨m',?_,hk.trans hkeys,?_⟩
      · rw [OutMsg.putn,← hout,← hleft]
        · exact hm'
        · exact fun hc => nomatch hc
      · rwa [append_assoc,take_append_drop] at hf

private theorem putAll_filled {m : OutMsg} {all : List Byte} (h : Filled m all)
    (puts : List (List Byte)) :
    ∃ m', m.putAll puts = some m' ∧ m'.keys = m.keys ∧ Filled m' (all ++ puts.flatten) := by
  induction puts generalizing m all with
  | nil => exact ⟨m,rfl,rfl,by simpa using h⟩
  | cons data puts ih =>
    obtain ⟨m1,hm1,hk1,hf1⟩ := putn_spec h (Nat.le_succ data.length)
    obtain ⟨m2,hm2,hk2,hf2⟩ := ih hf1
    refine ⟨m2,?_,hk2.trans hk1,?_⟩
    · rw [OutMsg.putAll,hm1]
      exact hm2
    · rwa [append_assoc] at hf2

variable {m : Message}

theorem length_secHeader (h : m.Sendable) : m.sec.length = m.keys.space := by
  unfold Message.sec secHeader KeyIds.space
  cases hmd : m.keys.md with
  | none =>
    cases henc : m.keys.enc with
    | none => rfl
    | some e =>
      simp [cryptoTag,htons,safeMsgCryptoHeaderSize]
      omega
  | some k =>
    obtain ⟨-,mac,hmac,hlen⟩ := h.md k hmd
    rw [hmac]
    cases henc : m.keys.enc with
    | none | some =>
      simp [cryptoTag,htons,safeMsgCryptoHeaderSize,hlen]
      omega

theorem forward_eq (h : m.Sendable) {out : OutMsg} (hkeys : out.keys = m.keys) :
    out.empty = (((out.packets ++ [out.last]).headD []).length == m.keys.space) := by
  unfold OutMsg.empty KeyIds.space
  rw [hkeys]
  cases hmd : m.keys.md with
  | none =>
    cases henc : m.keys.enc with
    | none => rfl
    | some e =>
      have hpos := length_pos_of_ne_nil (h.enc e henc)
      simp [hpos,Nat.add_comm]
  | some k =>
    simp [macSize,Nat.add_comm]
    omega

def wireOf (m : Message) : List (List Byte) → List (List Byte)
  | [] => []
  | [f] => [m.sec ++ f]
  | f :: g :: frags => longDatagrams m.id 0 ((m.sec ++ f) :: g :: frags)

structure Fragments (m : Message) (frags : List (List Byte)) : Prop where
  flatten : frags.flatten = m.bytes
  ne_nil : ∀ f ∈ frags, f ≠ []
  head : ∀ f ∈ frags.head?, m.sec.length + f.length ≤ usablePacketSize
  tail : ∀ f ∈ frags.tail, f.length ≤ usablePacketSize

theorem datagrams_eq (h : m.Sendable) :
    ∃ frags, m.datagrams = some (wireOf m frags) ∧ Fragments m frags := by
  have hsec := length_secHeader h
  have hspace := h.space
  have hnew : Filled (OutMsg.new m.keys) (List.replicate m.keys.space 0) := by
    refine ⟨fun p hp => (not_mem_nil hp).elim,?_,fun hc => absurd rfl hc,rfl⟩
    simp only [OutMsg.new,length_replicate]
    omega
  obtain ⟨out,hout,hkeys,hfilled⟩ := putAll_filled hnew m.puts
  have hkeys : out.keys = m.keys := hkeys
  have hempty := forward_eq h hkeys
  have hdatagrams : m.datagrams = some (out.sendMsg m.id m.mac) := by
    rw [Message.datagrams,hout]
    rfl
  rw [hdatagrams]
  have hflat := hfilled.all_eq
  have hdrop : (out.packets.flatten ++ out.last).drop m.keys.space = m.bytes := by
    rw [hflat,drop_left' length_replicate]
    rfl
  have hcut : m.keys.space ≤ (out.packets.flatten ++ out.last).length := by
    rw [hflat,length_append,length_replicate]
    exact Nat.le_add_right _ _
  cases hpackets : out.packets with
  | nil =>
    rw [hpackets,flatten_nil,nil_append] at hdrop hcut
    have hlen : m.bytes.length = out.last.length - m.keys.space := by
      rw [← hdrop,length_drop]
    rw [OutMsg.sendMsg,hempty,hpackets]
    by_cases hnil : m.bytes = []
    · refine ⟨[],?_,by rw [hnil]; rfl,?_,?_,?_⟩
      · rw [hnil,length_nil] at hlen
        have heq : out.last.length = m.keys.space := by omega
        simp [heq,wireOf]
      · exact fun f hf => (not_mem_nil hf).elim
      · exact fun f hf => nomatch hf
      · exact fun f hf => (not_mem_nil hf).elim
    · have hpos := length_pos_of_ne_nil hnil
      have hne : out.last.length ≠ m.keys.space := by omega
      refine ⟨[m.bytes],?_,by simp,?_,?_,?_⟩
      · have hover : overwrite (secHeader out.keys m.mac) out.last = m.sec ++ m.bytes := by
          rw [overwrite,hkeys,← hdrop,← hsec]
          rfl
        simp [hne,wireOf,hover]
      · intro f hf
        rw [List.mem_singleton.mp hf]
        exact hnil
      · rintro f ⟨⟩
        have hle := hfilled.last_le
        omega
      · exact fun f hf => (not_mem_nil hf).elim
  | cons head packets =>
    have hhead : head.length = usablePacketSize :=
      hfilled.full head (by rw [hpackets]; exact mem_cons_self)
    have hlast : out.last ≠ [] := hfilled.last_ne (by rw [hpackets]; exact fun hc => nomatch hc)
    have hne : ¬ head.length = m.keys.space := by omega
    refine ⟨head.drop m.keys.space :: (packets ++ [out.last]),?_,?_,?_,?_,?_⟩
    · have hover : overwrite (secHeader out.keys m.mac) head =
          m.sec ++ head.drop m.keys.space := by
        rw [overwrite,hkeys,← hsec]
        rfl
      have hnot : ¬ (((head :: packets ++ [out.last]).headD []).length == m.keys.space) = true := by
        simpa using hne
      obtain ⟨g,rest,hrest⟩ : ∃ g rest, packets ++ [out.last] = g :: rest := by
        cases packets with
        | nil | cons => exact ⟨_,_,rfl⟩
      rw [OutMsg.sendMsg,hempty,hpackets,if_neg hnot]
      dsimp only
      rw [hover,hrest,wireOf]
    · rw [hpackets,flatten_cons,append_assoc,drop_append_of_le_length (by omega)] at hdrop
      rw [← hdrop]
      simp
    · intro f hf
      rcases List.mem_cons.mp hf with rfl | hf
      · intro hnil
        have hlen := congrArg List.length hnil
        rw [length_drop,length_nil] at hlen
        omega
      · rcases List.mem_append.mp hf with hf | hf
        · have hf' := hfilled.full f (by rw [hpackets]; exact mem_cons_of_mem _ hf)
          rintro rfl
          cases hf'
        · rw [List.mem_singleton.mp hf]
          exact hlast
    · rintro f ⟨⟩
      rw [length_drop]
      omega
    · intro f hf
      rcases List.mem_append.mp hf with hf | hf
      · exact Nat.le_of_eq (hfilled.full f (by rw [hpackets]; exact mem_cons_of_mem _ hf))
      · rw [List.mem_singleton.mp hf]
        exact hfilled.last_le

section

variable (pre buf : List Byte)

private theorem getD_add (i : Nat) : (pre ++ buf).getD (pre.length + i) 0 = buf.getD i 0 := by
  rw [getD_append_right _ _ _ _ (Nat.le_add_right _ _),Nat.add_sub_cancel_left]

private theorem u16At_add (i : Nat) : u16At (pre ++ buf) (pre.length + i) = u16At buf i := by
  rw [u16At,u16At,getD_add,Nat.add_assoc,getD_add]

private theorem bytesAt_add (i n : Nat) : bytesAt (pre ++ buf)
    (pre.length + i) n = bytesAt buf i n := by
  rw [bytesAt,bytesAt,drop_append,drop_eq_nil_of_le (Nat.le_add_right _ _),
    Nat.add_sub_cancel_left,nil_append]

private theorem checkHeader_add (len : Int) :
    (checkHeader (pre ++ buf) pre.length len).data = pre.length + (checkHeader buf 0 len).data ∧
      (checkHeader (pre ++ buf) pre.length len).len = (checkHeader buf 0 len).len := by
  have h0 : bytesAt (pre ++ buf) pre.length 4 = bytesAt buf 0 4 := bytesAt_add pre buf 0 4
  unfold checkHeader
  simp only [h0,u16At_add,Nat.zero_add]
  split
  · split
    · split
      · simp only [Nat.add_assoc,true_and]
      · simp only [Nat.add_assoc,true_and]
    · split
      · simp only [Nat.add_assoc,true_and]
      · simp only [true_and]
  · exact ⟨rfl,rfl⟩

end

private theorem toNat_htons (n : Nat) (hn : n < 2^16) :
    (UInt8.ofNat (((n : Int) % 2^16).toNat / 2^8)).toNat * 2^8 +
      (UInt8.ofNat ((n : Int) % 2^16).toNat).toNat = n := by
  have hmod : ((n : Int) % 2^16).toNat = n := by omega
  rw [hmod,UInt8.toNat_ofNat',UInt8.toNat_ofNat']
  omega

private theorem secFields {flags a b : Nat} (hflags : flags < 2^16) (ha : a < 2^16) (hb : b < 2^16)
    (rest : List Byte) : ∀ buf, buf = cryptoTag ++ htons flags ++ htons a ++ htons b ++ rest →
      bytesAt buf 0 4 = cryptoTag ∧ u16At buf 4 = flags ∧ u16At buf 6 = a ∧ u16At buf 8 = b := by
  rintro buf rfl
  exact ⟨rfl,toNat_htons flags hflags,toNat_htons a ha,toNat_htons b hb⟩

private theorem bmod_short {n : Nat} (hn : n < 2^15) : Int.bmod (n : Int) (2^16) = n :=
  Int.bmod_eq_of_le (by omega) (by omega)

private theorem checkHeader_fields {flags a b : Nat} (hflags : flags < 2^16) (ha : a < 2^15)
    (hb : b < 2^15)
    (rest : List Byte) (len : Int) : ∀ buf,
    buf = cryptoTag ++ htons flags ++ htons a ++ htons b ++ rest →
    (checkHeader buf 0 len).data = safeMsgCryptoHeaderSize +
        (if flags % 2 = 1 ∧ 0 < a then a + macSize else 0) +
        (if flags / 2 % 2 = 1 ∧ 0 < b then b else 0) ∧
      (checkHeader buf 0 len).len = len - (safeMsgCryptoHeaderSize +
        (if flags % 2 = 1 ∧ 0 < a then a + macSize else 0) +
        (if flags / 2 % 2 = 1 ∧ 0 < b then b else 0) : Nat) := by
  intro buf hbuf
  obtain ⟨h0,h4,h6,h8⟩ := secFields hflags (by omega) (by omega) rest buf hbuf
  have hpos : ∀ n : Nat, ((n : Int) > 0) = (0 < n) := fun n => by simp
  unfold checkHeader
  simp only [Nat.zero_add,h0,h4,h6,h8,bmod_short ha,bmod_short hb,if_true,Int.toNat_natCast,hpos]
  split <;> split <;> simp <;> omega

private theorem checkHeader_sec (h : m.Sendable) (hkeys : m.sec ≠ []) (rest : List Byte)
    (len : Int) :
    (checkHeader (m.sec ++ rest) 0 len).data = m.sec.length ∧
      (checkHeader (m.sec ++ rest) 0 len).len = len - m.sec.length := by
  have hlen := length_secHeader h
  have hspace := h.space
  have hsmall : usablePacketSize < 2^15 := by decide
  rw [hlen]
  unfold KeyIds.space at hspace ⊢
  unfold Message.sec secHeader at hkeys ⊢
  cases hmd : m.keys.md with
  | none =>
    cases henc : m.keys.enc with
    | none =>
      rw [hmd,henc] at hkeys
      exact absurd rfl hkeys
    | some e =>
      have hpos := length_pos_of_ne_nil (h.enc e henc)
      simp only [hmd,henc,Option.elim] at hspace
      obtain ⟨h1,h2⟩ := checkHeader_fields (by decide : 2 < 2^16) (by decide : 0 < 2^15)
        (by omega : e.length < 2^15) (e ++ rest) len _ rfl
      simp [hpos] at h1 h2 ⊢
      exact ⟨h1,h2⟩
  | some k =>
    obtain ⟨hk,mac,hmac,hmaclen⟩ := h.md k hmd
    have hkpos := length_pos_of_ne_nil hk
    cases henc : m.keys.enc with
    | none =>
      simp only [hmd,henc,Option.elim] at hspace
      obtain ⟨h1,h2⟩ := checkHeader_fields (by decide : 1 < 2^16) (by omega : k.length < 2^15)
        (by decide : 0 < 2^15) (k ++ mac ++ rest) len _ rfl
      simp [hkpos,hmac] at h1 h2 ⊢
      rw [h1,h2]
      omega
    | some e =>
      have hpos := length_pos_of_ne_nil (h.enc e henc)
      simp only [hmd,henc,Option.elim] at hspace
      obtain ⟨h1,h2⟩ := checkHeader_fields (by decide : 3 < 2^16) (by omega : k.length < 2^15)
        (by omega : e.length < 2^15) (k ++ mac ++ e ++ rest) len _ rfl
      simp [hpos,hkpos,hmac] at h1 h2 ⊢
      rw [h1,h2]
      omega

private theorem u16_wire (v : Int) : (((UInt8.ofNat ((v % 2^16).toNat / 2^8)).toNat * 2^8 +
    (UInt8.ofNat (v % 2^16).toNat).toNat : Nat) : Int) = v % 2^16 := by
  rw [UInt8.toNat_ofNat',UInt8.toNat_ofNat']
  omega

private theorem u32_wire (v : Int) : ((((UInt8.ofNat ((v % 2^32).toNat / 2^24)).toNat * 2^8 +
    (UInt8.ofNat ((v % 2^32).toNat / 2^16)).toNat) * 2^16 +
    ((UInt8.ofNat ((v % 2^32).toNat / 2^8)).toNat * 2^8 +
      (UInt8.ofNat (v % 2^32).toNat).toNat) : Nat) : Int) = v % 2^32 := by
  simp only [UInt8.toNat_ofNat']
  omega

private theorem id_makeHeader (last : Bool) (seq len : Nat) (id : MsgID) (rest : List Byte) :
    (⟨u32At (makeHeader last seq len id ++ rest) 13,
      u16At (makeHeader last seq len id ++ rest) 17,u32At (makeHeader last seq len id ++ rest) 19,
      u16At (makeHeader last seq len id ++ rest) 23⟩ : MsgID) = id.wire := by
  rw [MsgID.wire,← u32_wire id.ipAddr,← u16_wire id.pid,← u32_wire id.time,← u16_wire id.msgNo]
  rfl

theorem getHeader_makeHeader (last : Bool) {seq len : Nat} (id : MsgID) (rest : List Byte)
    (received : Nat) (hseq : seq < 2^16) (hlen : len < 2^16) :
    getHeader (makeHeader last seq len id ++ rest) received = .fragment last seq id.wire
      (checkHeader (makeHeader last seq len id ++ rest) safeMsgHeaderSize len) := by
  have hmagic : bytesAt (makeHeader last seq len id ++ rest) 0 8 = safeMsgMagic := rfl
  have hlast : ((makeHeader last seq len id ++ rest).getD 8 0 != 0) = last := by
    cases last <;> rfl
  have hseq' : u16At (makeHeader last seq len id ++ rest) 9 = seq := toNat_htons seq hseq
  have hlen' : u16At (makeHeader last seq len id ++ rest) 11 = len := toNat_htons len hlen
  rw [getHeader,if_pos hmagic,hlast,hseq',hlen',id_makeHeader]
  rfl

theorem longDatagrams_getElem? (id : MsgID) (s : Nat) (l : List (List Byte)) (i : Nat) :
    (longDatagrams id s l)[i]? = l[i]?.map fun d =>
      makeHeader (decide (i + 1 = l.length)) (s + i : Nat) d.length id ++ d := by
  induction l generalizing s i with
  | nil => rfl
  | cons d more ih =>
    cases i with
    | zero =>
      rw [longDatagrams]
      cases more with
      | nil => rfl
      | cons e more => simp
    | succ i =>
      rw [longDatagrams,getElem?_cons_succ,getElem?_cons_succ,ih]
      simp [Nat.add_comm,Nat.add_left_comm]

theorem located_data (h : m.Sendable) {pre body stale : List Byte} {sec : List Byte}
    (hsec : sec = m.sec ∧ m.sec ≠ [] ∨
      sec = [] ∧ bytesAt (pre ++ (body ++ stale)) pre.length 4 ≠ cryptoTag) :
    ∃ loc, checkHeader (pre ++ (sec ++ (body ++ stale))) pre.length
    (sec.length + body.length : Nat) = loc ∧
      loc.len = body.length ∧
      bytesAt (pre ++ (sec ++ (body ++ stale))) loc.data body.length = body := by
  refine ⟨_,rfl,?_⟩
  rcases hsec with ⟨rfl,hne⟩ | ⟨rfl,htag⟩
  · obtain ⟨h1,h2⟩ := checkHeader_add pre (m.sec ++ (body ++ stale))
      (m.sec.length + body.length : Nat)
    obtain ⟨h3,h4⟩ := checkHeader_sec h hne (body ++ stale) (m.sec.length + body.length : Nat)
    rw [h1,h2,h3,h4,bytesAt_add]
    refine ⟨by omega,?_⟩
    have hbody := bytesAt_add m.sec (body ++ stale) 0 body.length
    rw [Nat.add_zero] at hbody
    rw [hbody,bytesAt,drop_zero]
    exact take_left
  · rw [nil_append,checkHeader,if_neg htag]
    refine ⟨by simp,?_⟩
    have hbody := bytesAt_add pre (body ++ stale) 0 body.length
    rw [Nat.add_zero] at hbody
    rw [hbody,bytesAt,drop_zero]
    exact take_left

end Condor.Io
