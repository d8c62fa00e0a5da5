import Condor.Io.SafeSock

/-!
# Where a datagram is read

The receive buffer holds a datagram and, behind it, what earlier ones have left.
-/

namespace Condor.Io

structure Region where
  first : Nat
  len : Nat
  deriving DecidableEq

def Region.bytesOf (r : Region) (buf : List Byte) : List Byte := bytesAt buf r.first r.len

def mdKeyIdLen (buf : List Byte) (data : Nat) : Int := Int.bmod (u16At buf (data + 6)) (2^16)

def encKeyIdLen (buf : List Byte) (data : Nat) : Int := Int.bmod (u16At buf (data + 8)) (2^16)

def hasMd (buf : List Byte) (data : Nat) : Prop :=
  u16At buf (data + 4) % 2 = 1 ∧ mdKeyIdLen buf data > 0
deriving Decidable

def hasEnc (buf : List Byte) (data : Nat) : Prop :=
  u16At buf (data + 4) / 2 % 2 = 1 ∧ encKeyIdLen buf data > 0
deriving Decidable

def mdSize (buf : List Byte) (data : Nat) : Nat :=
  if hasMd buf data then (mdKeyIdLen buf data).toNat + macSize else 0

def encSize (buf : List Byte) (data : Nat) : Nat :=
  if hasEnc buf data then (encKeyIdLen buf data).toNat else 0

def secSize (buf : List Byte) (data : Nat) : Nat :=
  if bytesAt buf data 4 = cryptoTag then
    safeMsgCryptoHeaderSize + mdSize buf data + encSize buf data
  else 0

def copied (buf : List Byte) (data : Nat) : List Region :=
  if bytesAt buf data 4 = cryptoTag then
    (if hasMd buf data then
      [⟨data + safeMsgCryptoHeaderSize,(mdKeyIdLen buf data).toNat⟩,
        ⟨data + safeMsgCryptoHeaderSize + (mdKeyIdLen buf data).toNat,macSize⟩]
    else []) ++
    (if hasEnc buf data then
      [⟨data + safeMsgCryptoHeaderSize + mdSize buf data,(encKeyIdLen buf data).toNat⟩]
    else [])
  else []

private theorem checkHeader_eq (buf : List Byte) (data : Nat) (len : Int) :
    (checkHeader buf data len).data = data + secSize buf data ∧
      (checkHeader buf data len).len = len - secSize buf data ∧
      (checkHeader buf data len).sec.md5KeyId.toList ++
        (checkHeader buf data len).sec.md.toList ++
        (checkHeader buf data len).sec.encKeyId.toList =
          (copied buf data).map (·.bytesOf buf) := by
  have hdef : checkHeader buf data len =
      if bytesAt buf data 4 = cryptoTag then
        let withMd : Located :=
          if hasMd buf data then
            ⟨data + safeMsgCryptoHeaderSize + (mdKeyIdLen buf data).toNat + macSize,
              len - safeMsgCryptoHeaderSize - mdKeyIdLen buf data - macSize,
              ⟨some (bytesAt buf (data + safeMsgCryptoHeaderSize) (mdKeyIdLen buf data).toNat),
                some (bytesAt buf (data + safeMsgCryptoHeaderSize + (mdKeyIdLen buf data).toNat)
                  macSize),.none⟩⟩
          else ⟨data + safeMsgCryptoHeaderSize,len - safeMsgCryptoHeaderSize,.none⟩
        if hasEnc buf data then
          ⟨withMd.data + (encKeyIdLen buf data).toNat,withMd.len - encKeyIdLen buf data,
            { withMd.sec with
              encKeyId := some (bytesAt buf withMd.data (encKeyIdLen buf data).toNat) }⟩
        else withMd
      else ⟨data,len,.none⟩ := rfl
  rw [hdef]
  unfold secSize copied mdSize encSize
  by_cases htag : bytesAt buf data 4 = cryptoTag
  · simp only [if_pos htag]
    by_cases hmd : hasMd buf data
    · have hmdLen := hmd.2
      simp only [if_pos hmd]
      by_cases henc : hasEnc buf data
      · have hencLen := henc.2
        simp only [if_pos henc]
        exact ⟨by omega,by omega,by simp [Region.bytesOf,Nat.add_assoc]⟩
      · simp only [if_neg henc]
        exact ⟨by omega,by omega,by simp [Region.bytesOf]⟩
    · simp only [if_neg hmd]
      by_cases henc : hasEnc buf data
      · have hencLen := henc.2
        simp only [if_pos henc]
        exact ⟨by omega,by omega,by simp [Region.bytesOf,Sec.none]⟩
      · simp only [if_neg henc]
        exact ⟨by omega,by omega,rfl⟩
  · simp only [if_neg htag]
    exact ⟨rfl,by omega,rfl⟩

private theorem copied_within {buf : List Byte} {data : Nat} {r : Region}
    (h : r ∈ copied buf data) :
    r.first + r.len ≤ data + secSize buf data := by
  unfold copied at h
  unfold secSize
  by_cases htag : bytesAt buf data 4 = cryptoTag
  · rw [if_pos htag] at h ⊢
    rcases List.mem_append.mp h with h | h
    · split at h
      · next hmd =>
        have hsize : mdSize buf data = (mdKeyIdLen buf data).toNat + macSize := if_pos hmd
        rcases List.mem_cons.mp h with rfl | h
        · dsimp only
          omega
        · obtain rfl := List.mem_singleton.mp h
          dsimp only
          omega
      · simp at h
    · split at h
      · next henc =>
        have hsize : encSize buf data = (encKeyIdLen buf data).toNat := if_pos henc
        obtain rfl := List.mem_singleton.mp h
        dsimp only
        omega
      · simp at h
  · rw [if_neg htag] at h
    simp at h

def isFragment (buf : List Byte) : Prop := bytesAt buf 0 8 = safeMsgMagic
deriving Decidable

def lengthField (buf : List Byte) : Nat := u16At buf 11

/-- The length check behind `getHeader`. -/
def properlySized (loc : Located) : Prop := 0 < loc.len ∧ loc.len ≤ safeMsgMaxPacketSize
deriving Decidable

namespace SafeSock

def received (s : SafeSock) (dgram : List Byte) : List Byte :=
  dgram ++ s.dataGram.drop dgram.length

/-- The security header is looked for at the beginning, or behind the header of a fragment. -/
def securityAt (buf : List Byte) : Nat := if isFragment buf then safeMsgHeaderSize else 0

/-- Where `handleIncomingPacket` goes on behind `getHeader`, the payload is not empty and lies, with
what was copied, in what has arrived. -/
def ReadsArrived (s : SafeSock) (dgram : List Byte) : Prop :=
  let buf := s.received dgram
  let loc := (getHeader buf dgram.length).loc
  properlySized loc → 0 < loc.len ∧ loc.data + loc.len ≤ dgram.length ∧
    ∀ r ∈ copied buf (securityAt buf), r.first + r.len ≤ dgram.length

/-- A fragment is read where it has arrived exactly if its length field is not above what has, or it
is dropped. -/
theorem readsArrived_iff (s : SafeSock) (dgram : List Byte) :
    s.ReadsArrived dgram ↔
      (isFragment (s.received dgram) →
        safeMsgHeaderSize + lengthField (s.received dgram) ≤ dgram.length ∨
        lengthField (s.received dgram) ≤ secSize (s.received dgram) safeMsgHeaderSize ∨
        safeMsgMaxPacketSize + secSize (s.received dgram) safeMsgHeaderSize <
          lengthField (s.received dgram)) := by
  unfold ReadsArrived
  generalize s.received dgram = buf
  dsimp only
  by_cases hfrag : isFragment buf
  · have hloc : (getHeader buf dgram.length).loc =
        checkHeader buf safeMsgHeaderSize (lengthField buf) := by
      rw [isFragment] at hfrag
      rw [getHeader,if_pos hfrag]
      rfl
    obtain ⟨hdata,hlen,-⟩ := checkHeader_eq buf safeMsgHeaderSize (lengthField buf)
    rw [hloc,properlySized,hdata,hlen,securityAt,if_pos hfrag]
    constructor
    · intro h _
      by_contra hnot
      have hend := (h (by omega)).2.1
      omega
    · intro h hsize
      have hfits := h hfrag
      refine ⟨by omega,by omega,fun r hr => ?_⟩
      have hwithin := copied_within hr
      omega
  · have hloc : (getHeader buf dgram.length).loc = checkHeader buf 0 dgram.length := by
      rw [isFragment] at hfrag
      rw [getHeader,if_neg hfrag]
      rfl
    obtain ⟨hdata,hlen,-⟩ := checkHeader_eq buf 0 dgram.length
    rw [hloc,properlySized,hdata,hlen,securityAt,if_neg hfrag]
    refine iff_of_true (fun hsize => ⟨by omega,by omega,fun r hr => ?_⟩) (fun h => absurd h hfrag)
    have hwithin := copied_within hr
    omega

def emptyFragment : List Byte := makeHeader true 0 100 ⟨0,0,0,0⟩

theorem fragment_read_beyond_datagram :
    ¬ ∀ (s : SafeSock) (dgram : List Byte), dgram.length ≤ safeMsgMaxPacketSize →
      s.ReadsArrived dgram := by
  intro hall
  have h := hall (new []) emptyFragment (by decide) (by decide)
  exact absurd h.2.1 (by decide)

end SafeSock

end Condor.Io
