import Mathlib.Data.List.GetD
import Condor.Io.SafeSock

/-!
# The directory of a message

While fragments arrive, the directory holds those that have arrived, and the message is complete
with the last one that was missing.
-/

namespace Condor.Io

open Finset Option

def flatRecv (left : List Byte) : Read → Got × List Byte
  | .bytes size =>
    if size ≤ left.length then (Got.ofBytes (left.take size),left.drop size) else (⟨-1,[]⟩,left)
  | .ptr delim => ((flatPtr left delim).1.elim ⟨-1,[]⟩ Got.ofBytes,(flatPtr left delim).2)
  | .peek => (left.head?.elim ⟨0,[]⟩ fun c => ⟨1,[c]⟩,left)

variable {delim : Byte} {i : Nat}

private theorem flatRecv_ptr {left : List Byte} (h : left.idxOf? delim = some i) :
    flatRecv left (.ptr delim) = flatRecv left (.bytes (i + 1)) := by
  obtain ⟨hlt,-⟩ := List.idxOf?_eq_some_iff.mp h
  rw [flatRecv,flatRecv,flatPtr,h,if_pos (Nat.succ_le_of_lt hlt)]
  rfl

private theorem flatRecv_ptr_none {left : List Byte} (h : left.idxOf? delim = none) :
    flatRecv left (.ptr delim) = (⟨-1,[]⟩,left) := by
  rw [flatRecv,flatPtr,h]
  rfl

namespace InMsg

def frag (frags : List (List Byte)) (i : Nat) : List Byte := frags.getD i []

def left (frags : List (List Byte)) (k off : Nat) : List Byte := (frags.drop k).flatten.drop off

section

variable {frags : List (List Byte)}

theorem frag_ne_nil (hne : ∀ f ∈ frags, f ≠ []) (hi : i < frags.length) :
    frag frags i ≠ [] := by
  rw [frag,List.getD_eq_getElem _ _ hi]
  exact hne _ (List.getElem_mem hi)

private theorem frag_of_le (hi : frags.length ≤ i) : frag frags i = [] := by
  rw [frag,List.getD_eq_default _ _ hi]

theorem left_eq {k off : Nat} (hk : k < frags.length) (hoff : off ≤ (frag frags k).length) :
    left frags k off = (frag frags k).drop off ++ left frags (k + 1) 0 := by
  rw [left,left,List.drop_eq_getElem_cons hk,List.flatten_cons,frag,
    List.getD_eq_getElem _ _ hk,List.drop_append_of_le_length]
  · rfl
  · rwa [frag,List.getD_eq_getElem _ _ hk] at hoff

private theorem left_of_le {k : Nat} (hk : frags.length ≤ k) (off : Nat) : left frags k off =
    [] := by
  rw [left,List.drop_eq_nil_of_le hk]
  simp

end

structure Gathering (frags : List (List Byte)) (arrived : Finset Nat) (x : InMsg) : Prop where
  subset : arrived ⊆ range frags.length
  nonempty : arrived.Nonempty
  dEntry : ∀ i, x.dEntry i =
    if i ∈ arrived then ⟨(frag frags i).length,some (frag frags i)⟩ else ⟨0,none⟩
  msgLen : x.msgLen = ∑ i ∈ arrived, (frag frags i).length
  lastNo : x.lastNo = if frags.length - 1 ∈ arrived then frags.length - 1 else 0
  received : x.received = arrived.card
  passed : x.passed = 0
  headDir : x.headDir = 0
  dirs : ∀ i ∈ arrived, i / safeMsgNoOfDirEntry < x.dirs
  dirs_le : x.dirs ≤ (frags.length - 1) / safeMsgNoOfDirEntry + 1

structure Unread (frags : List (List Byte)) (k off : Nat) (x : InMsg) : Prop where
  le : k ≤ frags.length
  dLen : ∀ i, (x.dEntry i).dLen = (frag frags i).length
  dGram : ∀ i, k ≤ i → (x.dEntry i).dGram = if i < frags.length then some (frag frags i) else none
  cur : x.cur = k
  curPacket : x.curPacket < safeMsgNoOfDirEntry
  headDir : x.headDir = x.curDir
  curData : x.curData = off
  off_le : off ≤ (frag frags k).length
  inside : k < frags.length → off < (frag frags k).length
  dirs : x.dirs = (frags.length - 1) / safeMsgNoOfDirEntry + 1
  lastNo : x.lastNo = frags.length - 1
  passed : x.passed + (left frags k off).length = x.msgLen
  pos : 0 < x.msgLen

section

variable {frags : List (List Byte)} {arrived : Finset Nat} {x : InMsg}

theorem complete_iff {arrived : Finset Nat} (hsub : arrived ⊆ range frags.length)
    (hn : 2 ≤ frags.length) (hone : arrived.card = 1 → frags.length - 1 ∈ arrived) :
    (if frags.length - 1 ∈ arrived then frags.length - 1 else 0) + 1 = arrived.card ↔
      arrived = range frags.length := by
  split
  · next hlast =>
    have hle := Finset.card_le_card hsub
    rw [Finset.card_range] at hle
    constructor
    · intro hcard
      apply Finset.eq_of_subset_of_card_le hsub
      rw [Finset.card_range]
      omega
    · intro heq
      rw [heq,Finset.card_range]
      omega
  · next hlast =>
    constructor
    · intro hcard
      exact absurd (hone hcard.symm) hlast
    · intro heq
      rw [heq,Finset.mem_range] at hlast
      omega

private theorem left_zero (frags : List (List Byte)) :
    (left frags 0 0).length = ∑ i ∈ range frags.length, (frag frags i).length := by
  induction frags with
  | nil => rfl
  | cons f frags ih =>
    rw [List.length_cons,Finset.sum_range_succ']
    have hrest : ∀ i, frag (f :: frags) (i + 1) = frag frags i := fun i => rfl
    simp only [hrest,← ih]
    simp [left,frag]
    omega

theorem gathering_new {mID : MsgID} {last : Bool} {sec : Sec} {now : Int}
    (hi : i < frags.length) (hlast : last = decide (i = frags.length - 1)) :
    Gathering frags {i} (new mID last i (frag frags i) sec now) := by
  constructor
  · intro j hj
    rw [Finset.mem_singleton.mp hj]
    exact Finset.mem_range.mpr hi
  · exact Finset.singleton_nonempty i
  · intro j
    simp only [new,Function.update_apply,Finset.mem_singleton]
    split
    · next heq => rw [heq]
    · rfl
  · simp [new]
  · show (if last = true then i else 0) = _
    simp only [hlast,Finset.mem_singleton,decide_eq_true_eq]
    by_cases heq : i = frags.length - 1
    · rw [if_pos heq,if_pos heq.symm,heq]
    · rw [if_neg heq,if_neg (Ne.symm heq)]
  · rfl
  · rfl
  · rfl
  · intro j hj
    rw [Finset.mem_singleton.mp hj]
    exact Nat.lt_succ_self _
  · apply Nat.succ_le_succ
    apply Nat.div_le_div_right
    omega

theorem Gathering.unread (h : Gathering frags (range frags.length) x)
    (hne : ∀ f ∈ frags, f ≠ []) (hn : 2 ≤ frags.length) :
    Unread frags 0 0 { x with curDir := x.headDir, curPacket := 0, curData := 0 } := by
  have hentry : ∀ i, x.dEntry i =
      if i < frags.length then ⟨(frag frags i).length,some (frag frags i)⟩ else ⟨0,none⟩ := by
    intro i
    rw [h.dEntry i]
    simp only [Finset.mem_range]
  have hlast : frags.length - 1 ∈ range frags.length := Finset.mem_range.mpr (by omega)
  constructor
  · exact Nat.zero_le _
  · intro i
    show (x.dEntry i).dLen = _
    rw [hentry i]
    split
    · rfl
    · next hi => rw [frag_of_le (Nat.not_lt.mp hi),List.length_nil]
  · intro i _
    show (x.dEntry i).dGram = _
    rw [hentry i]
    split <;> rfl
  · show safeMsgNoOfDirEntry * x.headDir + 0 = 0
    rw [h.headDir]
    rfl
  · show 0 < safeMsgNoOfDirEntry
    decide
  · rfl
  · rfl
  · exact Nat.zero_le _
  · intro hk
    exact List.length_pos_of_ne_nil (frag_ne_nil hne hk)
  · exact Nat.le_antisymm h.dirs_le (h.dirs _ hlast)
  · show x.lastNo = _
    rw [h.lastNo,if_pos hlast]
  · show x.passed + _ = x.msgLen
    rw [h.passed,h.msgLen,Nat.zero_add,left_zero]
  · show 0 < x.msgLen
    have hk : 0 < frags.length := by omega
    rw [h.msgLen,← left_zero,left_eq hk (Nat.zero_le _),List.length_append,List.drop_zero]
    have hpos := List.length_pos_of_ne_nil (frag_ne_nil hne hk)
    omega

private theorem Gathering.moveTo (h : Gathering frags arrived x) (hi : i < frags.length) :
    Gathering frags arrived { x with
      curDir := i / safeMsgNoOfDirEntry
      dirs := max x.dirs (i / safeMsgNoOfDirEntry + 1) } := by
  refine ⟨h.subset,h.nonempty,h.dEntry,h.msgLen,h.lastNo,h.received,h.passed,h.headDir,?_,?_⟩
  · intro j hj
    exact Nat.lt_of_lt_of_le (h.dirs j hj) (Nat.le_max_left _ _)
  · apply Nat.max_le.mpr
    refine ⟨h.dirs_le,Nat.succ_le_succ ?_⟩
    apply Nat.div_le_div_right
    omega

theorem Gathering.insert (h : Gathering frags arrived x) (hi : i < frags.length)
    (hmem : i ∉ arrived) (hdir : i / safeMsgNoOfDirEntry < x.dirs) {last : Bool}
    (hlast : last = decide (i = frags.length - 1)) :
    Gathering frags (insert i arrived) { x with
      dEntry := Function.update x.dEntry i ⟨(frag frags i).length,some (frag frags i)⟩
      msgLen := x.msgLen + (frag frags i).length
      lastNo := if last then i else x.lastNo
      received := x.received + 1 } := by
  constructor
  · intro j hj
    rcases Finset.mem_insert.mp hj with rfl | hj
    · exact Finset.mem_range.mpr hi
    · exact h.subset hj
  · exact Finset.insert_nonempty i arrived
  · intro j
    simp only [Function.update_apply,Finset.mem_insert]
    by_cases hj : j = i
    · rw [if_pos hj,if_pos (.inl hj),hj]
    · simp only [hj,false_or]
      exact h.dEntry j
  · rw [Finset.sum_insert hmem,h.msgLen,Nat.add_comm]
  · simp only [hlast,decide_eq_true_eq,Finset.mem_insert]
    by_cases heq : i = frags.length - 1
    · rw [if_pos heq,if_pos (.inl heq.symm),heq]
    · simp only [heq,Ne.symm heq,false_or]
      exact h.lastNo
  · rw [Finset.card_insert_of_notMem hmem,h.received]
  · exact h.passed
  · exact h.headDir
  · intro j hj
    rcases Finset.mem_insert.mp hj with rfl | hj
    · exact hdir
    · exact h.dirs j hj
  · exact h.dirs_le

theorem Gathering.lastNo_iff (h : Gathering frags arrived x) (hn : 2 ≤ frags.length)
    (hone : arrived.card = 1 → frags.length - 1 ∈ arrived) :
    x.lastNo + 1 = x.received ↔ arrived = range frags.length := by
  rw [h.lastNo,h.received]
  exact complete_iff h.subset hn hone

theorem Gathering.addPacket (h : Gathering frags arrived x) (hne : ∀ f ∈ frags, f ≠ [])
    (hn : 2 ≤ frags.length) (hpart : arrived ≠ range frags.length)
    (hi : i < frags.length) {last : Bool} (hlast : last = decide (i = frags.length - 1))
    (now : Int) :
    (x.addPacket last i (frag frags i) now).1 = decide
    (Insert.insert i arrived = range frags.length) ∧
      (Insert.insert i arrived ≠ range frags.length →
        Gathering frags (Insert.insert i arrived) (x.addPacket last i (frag frags i) now).2) ∧
      (Insert.insert i arrived = range frags.length →
        Unread frags 0 0 (x.addPacket last i (frag frags i) now).2) := by
  have hpart' : ¬ (x.lastNo ≠ 0 ∧ x.lastNo + 1 = x.received) := by
    rintro ⟨h0,h1⟩
    apply hpart
    rw [← h.lastNo_iff hn]
    · exact h1
    · intro _
      by_contra hmem
      exact h0 (by rw [h.lastNo,if_neg hmem])
  have hmove := h.moveTo hi
  unfold InMsg.addPacket
  rw [if_neg hpart']
  dsimp only
  by_cases hmem : i ∈ arrived
  · have hlen : (x.dEntry i).dLen ≠ 0 := by
      rw [h.dEntry i,if_pos hmem]
      exact Nat.ne_of_gt (List.length_pos_of_ne_nil (frag_ne_nil hne hi))
    rw [if_neg hlen,Finset.insert_eq_self.mpr hmem]
    simp [hpart,hmove]
  · have hlen : (x.dEntry i).dLen = 0 := by
      rw [h.dEntry i,if_neg hmem]
    have hins := hmove.insert hi hmem
      (Nat.lt_of_lt_of_le (Nat.lt_succ_self _) (Nat.le_max_right _ _))
      hlast
    have hone : (Insert.insert i arrived).card = 1 →
      frags.length - 1 ∈ Insert.insert i arrived := by
      intro hcard
      rw [Finset.card_insert_of_notMem hmem] at hcard
      have hpos := h.nonempty.card_pos
      omega
    have hiff := hins.lastNo_iff hn hone
    dsimp only at hiff
    rw [if_pos hlen]
    by_cases heq : Insert.insert i arrived = range frags.length
    · rw [if_pos (hiff.mpr heq)]
      rw [heq] at hins ⊢
      exact ⟨by simp,fun hc => absurd rfl hc,fun _ => hins.unread hne hn⟩
    · rw [if_neg fun hc => heq (hiff.mp hc)]
      refine ⟨by simp [heq],fun _ => ?_,fun hc => absurd hc heq⟩
      exact ⟨hins.subset,hins.nonempty,hins.dEntry,hins.msgLen,hins.lastNo,hins.received,
        hins.passed,
        hins.headDir,hins.dirs,hins.dirs_le⟩

variable {k off : Nat}

private theorem left_drop (m : Nat) : left frags k (off + m) = (left frags k off).drop m := by
  rw [left,left,List.drop_drop]

private theorem Unread.curDir_lt (h : Unread frags k off x) (hk : k < frags.length) :
    x.curDir < x.dirs := by
  have hcur := h.cur
  rw [InMsg.cur] at hcur
  rw [h.dirs]
  apply Nat.lt_succ_of_le
  rw [Nat.le_div_iff_mul_le (by decide)]
  rw [Nat.mul_comm] at hcur
  omega

theorem Unread.curDir_lt_iff (h : Unread frags k off x) (hk : k = frags.length)
    (hn : 0 < frags.length) : x.curDir < x.dirs ↔ ¬ safeMsgNoOfDirEntry ∣ frags.length := by
  have hcur := h.cur
  have hpacket := h.curPacket
  rw [InMsg.cur,hk] at hcur
  rw [h.dirs]
  simp only [safeMsgNoOfDirEntry] at hcur hpacket ⊢
  omega

private theorem incrementCurData_within {m : Nat} (h : x.curData + m ≠ (x.dEntry x.cur).dLen) :
    x.incrementCurData m = { x with curData := x.curData + m, passed := x.passed + m } := by
  unfold incrementCurData
  exact if_neg h

private theorem incrementCurData_end {m : Nat} (h : x.curData + m = (x.dEntry x.cur).dLen) :
    x.incrementCurData m = { x with
      passed := x.passed + m
      dEntry := Function.update x.dEntry x.cur ⟨(x.dEntry x.cur).dLen,none⟩
      headDir := if x.curPacket + 1 = safeMsgNoOfDirEntry then x.headDir + 1 else x.headDir
      curDir := if x.curPacket + 1 = safeMsgNoOfDirEntry then x.headDir + 1 else x.curDir
      curPacket := if x.curPacket + 1 = safeMsgNoOfDirEntry then 0 else x.curPacket + 1
      curData := 0 } := by
  unfold incrementCurData
  refine (if_pos h).trans ?_
  dsimp only [InMsg.cur]
  split <;> rfl

theorem Unread.increment (h : Unread frags k off x) (hne : ∀ f ∈ frags, f ≠ [])
    (hk : k < frags.length) {m : Nat} (hm : off + m ≤ (frag frags k).length) :
    ∃ k' off', Unread frags k' off' (x.incrementCurData m) ∧
      left frags k' off' = (left frags k off).drop m := by
  have hlen : (left frags k off).length = (left frags k (off + m)).length + m := by
    have hle : m ≤ (left frags k off).length := by
      rw [left_eq hk h.off_le,List.length_append,List.length_drop]
      omega
    rw [left_drop,List.length_drop]
    omega
  have hpassed := h.passed
  have hentry : (x.dEntry x.cur).dLen = (frag frags k).length := by
    rw [h.cur,h.dLen]
  by_cases hall : off + m = (frag frags k).length
  · have hnext : left frags k (off + m) = left frags (k + 1) 0 := by
      rw [left_eq hk hm,hall,List.drop_length,List.nil_append]
    refine ⟨k + 1,0,?_,by rw [← left_drop,hnext]⟩
    rw [incrementCurData_end (by rw [h.curData,hentry,hall])]
    have hcur := h.cur
    have hhead := h.headDir
    have hpacket := h.curPacket
    rw [InMsg.cur] at hcur
    constructor
    · exact hk
    · intro i
      simp only [Function.update_apply]
      split
      · next heq => rw [heq,h.dLen]
      · exact h.dLen i
    · intro i hi
      have hik : i ≠ x.cur := by
        rw [h.cur]
        omega
      simp only [Function.update_apply,if_neg hik]
      exact h.dGram i (by omega)
    · simp only [InMsg.cur]
      split
      · simp only [safeMsgNoOfDirEntry] at *
        omega
      · omega
    · dsimp only
      split
      · decide
      · omega
    · dsimp only
      split
      · rfl
      · exact hhead
    · rfl
    · exact Nat.zero_le _
    · intro hk'
      exact List.length_pos_of_ne_nil (frag_ne_nil hne hk')
    · exact h.dirs
    · exact h.lastNo
    · dsimp only
      rw [← hnext]
      omega
    · exact h.pos
  · refine ⟨k,off + m,?_,left_drop m⟩
    rw [incrementCurData_within (by rw [h.curData,hentry]; exact hall)]
    refine ⟨h.le,h.dLen,h.dGram,h.cur,h.curPacket,h.headDir,?_,hm,
      fun _ => by omega,h.dirs,h.lastNo,?_,
      h.pos⟩
    · rw [h.curData]
    · dsimp only
      omega

private theorem Unread.dEntry_cur (h : Unread frags k off x) (hk : k < frags.length) :
    x.dEntry x.cur = ⟨(frag frags k).length,some (frag frags k)⟩ := by
  have hlen := h.dLen k
  have hgram := h.dGram k (Nat.le_refl k)
  rw [if_pos hk] at hgram
  rw [h.cur,← hlen,← hgram]

private theorem getLoop_step {fuel size m : Nat} {g : List Byte} (hdir : x.curDir < x.dirs)
    (hentry : x.dEntry x.cur = ⟨g.length,some g⟩) (hm : m = min (size + 1) (g.length - x.curData)) :
    getLoop (fuel + 1) x (size + 1) =
      (getLoop fuel (x.incrementCurData m) (size + 1 - m)).map fun r =>
        ((g.drop x.curData).take m ++ r.1,r.2) := by
  simp only [getLoop,hentry,← hm]
  rw [if_pos ⟨hdir,fun hc => nomatch hc⟩]
  rfl

theorem Unread.getLoop (h : Unread frags k off x) (hne : ∀ f ∈ frags, f ≠ []) {fuel size : Nat}
    (hfuel : size ≤ fuel) (hsize : size ≤ (left frags k off).length) :
    ∃ x' k' off', getLoop fuel x size = some ((left frags k off).take size,x') ∧
      Unread frags k' off' x' ∧ left frags k' off' = (left frags k off).drop size := by
  induction fuel generalizing x k off size with
  | zero =>
    obtain rfl : size = 0 := by omega
    exact ⟨x,k,off,by simp [InMsg.getLoop],h,rfl⟩
  | succ fuel ih =>
    cases size with
    | zero => exact ⟨x,k,off,by simp [InMsg.getLoop],h,rfl⟩
    | succ size =>
      have hk : k < frags.length := by
        by_contra hk
        rw [left_of_le (by omega)] at hsize
        cases hsize
      have hinside := h.inside hk
      have hentry := h.dEntry_cur hk
      obtain ⟨m,hm⟩ : ∃ m, m = min (size + 1) ((frag frags k).length - off) := ⟨_,rfl⟩
      obtain ⟨k',off',hnext,hleft⟩ := h.increment hne hk (m := m) (by omega)
      have hrest : size + 1 - m ≤ (left frags k' off').length := by
        rw [hleft,List.length_drop]
        omega
      obtain ⟨x',k'',off'',hget,hx',hleft'⟩ := ih hnext (by omega : size + 1 - m ≤ fuel) hrest
      refine ⟨x',k'',off'',?_,hx',?_⟩
      · have hm' : m = min (size + 1) ((frag frags k).length - x.curData) := by
          rw [h.curData]
          exact hm
        rw [getLoop_step (h.curDir_lt hk) hentry hm',hget,h.curData,hleft]
        have htake : (left frags k off).take (size + 1) =
            ((frag frags k).drop off).take m ++ ((left frags k off).drop m).take
              (size + 1 - m) := by
          have hone : ((frag frags k).drop off).take m = (left frags k off).take m := by
            rw [left_eq hk h.off_le,List.take_append_of_le_length]
            rw [List.length_drop]
            omega
          rw [hone,← List.take_add]
          congr 1
          omega
        rw [htake]
        rfl
      · rw [hleft',hleft,List.drop_drop]
        congr 1
        omega

theorem Unread.getn (h : Unread frags k off x) (hne : ∀ f ∈ frags, f ≠ []) (size : Nat) :
    ∃ x' k' off', x.getn size = some ((flatRecv (left frags k off) (.bytes size)).1,x') ∧
      Unread frags k' off' x' ∧
      left frags k' off' = (flatRecv (left frags k off) (.bytes size)).2 := by
  have hpassed := h.passed
  rw [InMsg.getn,flatRecv]
  by_cases hsize : size ≤ (left frags k off).length
  · obtain ⟨x',k',off',hget,hx',hleft⟩ := h.getLoop hne (Nat.le_refl size) hsize
    rw [if_neg (by omega),if_pos hsize,hget]
    exact ⟨x',k',off',rfl,hx',hleft⟩
  · rw [if_pos (by omega),if_neg hsize]
    exact ⟨x,k,off,rfl,h,rfl⟩

theorem Unread.search (h : Unread frags k off x) {fuel j t n : Nat} (hj : k ≤ j)
    (hlt : j < frags.length) (ht : t ≤ (frag frags j).length) (hfuel : frags.length ≤ j + fuel) :
    x.search delim fuel j t n = some (((left frags j t).idxOf? delim).map (n + ·)) := by
  induction fuel generalizing j t n with
  | zero => omega
  | succ fuel ih =>
    have hgram := h.dGram j hj
    rw [if_pos hlt] at hgram
    rw [InMsg.search,hgram,h.dLen,left_eq hlt ht,idxOf?_append,if_neg fun hc => nomatch hc.1]
    simp only [getD_some]
    cases ((frag frags j).drop t).idxOf? delim with
    | some i => rfl
    | none =>
      dsimp only
      rw [none_or,Option.map_map]
      have hnext : j + 1 < frags.length → x.search delim fuel (j + 1) 0
          (n + ((frag frags j).length - t)) = some (Option.map ((n + ·) ∘ fun i =>
            i + ((frag frags j).drop t).length) ((left frags (j + 1) 0).idxOf? delim)) := by
        intro hlt'
        rw [ih (by omega) hlt' (Nat.zero_le _) (by omega)]
        congr 2
        funext i
        show n + ((frag frags j).length - t) + i = n + (i + ((frag frags j).drop t).length)
        rw [List.length_drop]
        omega
      have hlast : frags.length ≤ j + 1 → (left frags (j + 1) 0).idxOf? delim = none := by
        intro hle
        rw [left_of_le hle]
        rfl
      have hdirs : (j + 1) % safeMsgNoOfDirEntry = 0 →
          ((j + 1) / safeMsgNoOfDirEntry < x.dirs ↔ j + 1 < frags.length) := by
        intro hmod
        rw [h.dirs]
        simp only [safeMsgNoOfDirEntry] at hmod ⊢
        omega
      split
      · next hmod =>
        split
        · next hdir => exact hnext ((hdirs hmod).mp hdir)
        · next hdir =>
          rw [hlast (Nat.not_lt.mp fun hlt' => hdir ((hdirs hmod).mpr hlt'))]
          rfl
      · rw [h.dGram (j + 1) (by omega)]
        by_cases hlt' : j + 1 < frags.length
        · rw [if_pos hlt',if_neg (fun hc => nomatch hc)]
          exact hnext hlt'
        · rw [if_neg hlt',if_pos rfl,hlast (Nat.not_lt.mp hlt')]
          rfl

private theorem Unread.search_end (h : Unread frags k off x) {fuel n : Nat}
    (hk : k = frags.length) (hn : 0 < frags.length) :
    x.search delim (fuel + 1) k 0 n = some none := by
  have hgram : ∀ i, k ≤ i → (x.dEntry i).dGram = none := by
    intro i hi
    rw [h.dGram i hi,if_neg (by omega)]
  have hlen : (x.dEntry k).dLen = 0 := by
    rw [h.dLen,frag_of_le (by omega),List.length_nil]
  rw [InMsg.search,hgram k (Nat.le_refl k),hgram (k + 1) (Nat.le_succ k),hlen]
  simp only [ne_eq,not_true_eq_false,and_false,if_false,getD_none,List.drop_nil,
    List.idxOf?_nil,if_true]
  split
  · next hmod =>
    rw [if_neg]
    rw [h.dirs]
    simp only [safeMsgNoOfDirEntry] at hmod ⊢
    omega
  · rfl

theorem Unread.getPtr (h : Unread frags k off x) (hne : ∀ f ∈ frags, f ≠ [])
    (hn : 0 < frags.length) (hdir : x.curDir < x.dirs) (delim : Byte) :
    ∃ x' k' off', x.getPtr delim = some ((flatRecv (left frags k off) (.ptr delim)).1,x') ∧
      Unread frags k' off' x' ∧
      left frags k' off' = (flatRecv (left frags k off) (.ptr delim)).2 := by
  rw [InMsg.getPtr,if_pos hdir]
  by_cases hk : k < frags.length
  · have hidx : (left frags k off).idxOf? delim = (((frag frags k).drop off).idxOf? delim).or
        (((left frags (k + 1) 0).idxOf? delim).map (· + ((frag frags k).drop off).length)) := by
      rw [left_eq hk h.off_le,idxOf?_append]
    rw [h.dEntry_cur hk,h.curData]
    simp only [getD_some]
    cases hfind : ((frag frags k).drop off).idxOf? delim with
    | some i =>
      obtain ⟨hlt,-⟩ := List.idxOf?_eq_some_iff.mp hfind
      rw [hfind,some_or] at hidx
      rw [flatRecv_ptr hidx]
      dsimp only
      split
      · exact h.getn hne (i + 1)
      · -- the bytes are in the current entry and do not end it
        rw [List.length_drop] at hlt
        obtain ⟨k',off',hnext,hleft⟩ := h.increment hne hk (by omega : off + (i + 1) ≤ _)
        have hsize : i + 1 ≤ (left frags k off).length := by
          rw [left_eq hk h.off_le,List.length_append,List.length_drop]
          omega
        rw [flatRecv,if_pos hsize]
        refine ⟨_,k',off',?_,hnext,hleft⟩
        rw [left_eq hk h.off_le,List.take_append_of_le_length]
        rw [List.length_drop]
        omega
    | none =>
      rw [h.cur,h.search (Nat.le_refl k) hk h.off_le]
      · cases hall : (left frags k off).idxOf? delim with
        | none =>
          rw [flatRecv_ptr_none hall]
          exact ⟨x,k,off,rfl,h,rfl⟩
        | some i =>
          rw [flatRecv_ptr hall]
          have hget := h.getn hne (i + 1)
          rw [Nat.add_comm i 1] at hget ⊢
          exact hget
      · have hdirs := h.dirs
        rw [hdirs]
        simp only [safeMsgNoOfDirEntry]
        omega
  · have hkn : k = frags.length := Nat.le_antisymm h.le (Nat.not_lt.mp hk)
    obtain rfl : off = 0 := by
      have hoff := h.off_le
      rw [frag_of_le (Nat.not_lt.mp hk),List.length_nil] at hoff
      omega
    have hleft : left frags k 0 = [] := left_of_le (Nat.not_lt.mp hk) 0
    have hgram := h.dGram k (Nat.le_refl k)
    rw [if_neg hk] at hgram
    dsimp only
    rw [h.cur,hgram,h.curData,h.search_end hkn hn,hleft]
    refine ⟨x,k,0,?_,h,hleft⟩
    rfl

theorem Unread.peek (h : Unread frags k off x) (hleft : left frags k off ≠ []) :
    x.peek = some ((flatRecv (left frags k off) .peek).1,x) := by
  have hk : k < frags.length := by
    by_contra hk
    exact hleft (left_of_le (Nat.not_lt.mp hk) off)
  have hinside := h.inside hk
  have hhead : (left frags k off).head? = some (frag frags k)[off] := by
    rw [left_eq hk h.off_le,List.head?_append,List.head?_drop,List.getElem?_eq_getElem hinside]
    rfl
  rw [InMsg.peek,if_pos (h.curDir_lt hk),h.dEntry_cur hk,h.curData,flatRecv,hhead]
  show ((frag frags k)[off]?.map fun c => ((⟨1,[c]⟩,x) : Got × InMsg)) = _
  rw [List.getElem?_eq_getElem hinside]
  rfl

/-- At the end of a message, the next byte is not looked at, and there is no search when the last
page of the directory was full. -/
def Within (x : InMsg) : Read → Prop
  | .bytes _ => True
  | .ptr _ => x.consumed = false ∨ ¬ safeMsgNoOfDirEntry ∣ x.lastNo + 1
  | .peek => x.consumed = false

instance (x : InMsg) (op : Read) : Decidable (Within x op) :=
  match op with
  | .bytes _ => .isTrue trivial
  | .ptr _ => inferInstanceAs (Decidable (_ ∨ _))
  | .peek => inferInstanceAs (Decidable (_ = _))

theorem Unread.consumed_iff (h : Unread frags k off x) :
    x.consumed = false ↔ left frags k off ≠ [] := by
  have hpassed := h.passed
  have hpos := h.pos
  have hne : x.msgLen ≠ 0 := by omega
  rw [InMsg.consumed,ne_eq,← List.length_eq_zero_iff]
  simp only [bne_iff_ne.mpr hne,Bool.true_and,beq_eq_false_iff_ne,ne_eq]
  omega

theorem Unread.readLong (h : Unread frags k off x) (hne : ∀ f ∈ frags, f ≠ [])
    (hn : 0 < frags.length) {op : Read} (hop : Within x op) :
    ∃ x' k' off', SafeSock.readLong x op = some ((flatRecv (left frags k off) op).1,x') ∧
      Unread frags k' off' x' ∧ left frags k' off' = (flatRecv (left frags k off) op).2 := by
  cases op with
  | bytes size => exact h.getn hne size
  | ptr delim =>
    apply h.getPtr hne hn
    by_cases hk : k < frags.length
    · exact h.curDir_lt hk
    · have hkn : k = frags.length := Nat.le_antisymm h.le (Nat.not_lt.mp hk)
      rw [h.curDir_lt_iff hkn hn]
      rcases hop with hop | hop
      · exact absurd (left_of_le (Nat.not_lt.mp hk) off) (h.consumed_iff.mp hop)
      · rwa [h.lastNo,Nat.sub_add_cancel hn] at hop
  | peek =>
    exact ⟨x,k,off,h.peek (h.consumed_iff.mp hop),h,rfl⟩

private theorem incrementCurData_msgID (x : InMsg) (n : Nat) :
    (x.incrementCurData n).msgID = x.msgID := by
  unfold incrementCurData
  dsimp only
  split
  · split <;> rfl
  · rfl

private theorem getLoop_msgID {fuel size : Nat} {x x' : InMsg} {l : List Byte}
    (h : InMsg.getLoop fuel x size = some (l,x')) : x'.msgID = x.msgID := by
  induction fuel generalizing x size l with
  | zero =>
    cases size with
    | zero =>
      simp only [InMsg.getLoop] at h
      rw [(Prod.mk.inj (some.inj h)).2]
    | succ size => simp [InMsg.getLoop] at h
  | succ fuel ih =>
    cases size with
    | zero =>
      simp only [InMsg.getLoop] at h
      rw [(Prod.mk.inj (some.inj h)).2]
    | succ size =>
      simp only [InMsg.getLoop] at h
      split at h
      · obtain ⟨⟨l',y⟩,hr,heq⟩ := Option.map_eq_some_iff.mp h
        obtain rfl := (Prod.mk.inj heq).2
        rw [ih hr]
        exact incrementCurData_msgID x _
      · cases h

private theorem getn_msgID {size : Nat} {x x' : InMsg} {g : Got} (h : x.getn size = some (g,x')) :
    x'.msgID = x.msgID := by
  unfold InMsg.getn at h
  split at h
  · rw [(Prod.mk.inj (some.inj h)).2]
  · obtain ⟨r,hr,heq⟩ := Option.map_eq_some_iff.mp h
    rw [← (Prod.mk.inj heq).2]
    exact getLoop_msgID hr

private theorem getPtr_msgID {x x' : InMsg} {g : Got} (h : x.getPtr delim = some (g,x')) :
    x'.msgID = x.msgID := by
  unfold InMsg.getPtr at h
  split at h
  · dsimp only at h
    split at h
    · split at h
      · exact getn_msgID h
      · rw [← (Prod.mk.inj (some.inj h)).2]
        exact incrementCurData_msgID x _
    · split at h
      · cases h
      · rw [(Prod.mk.inj (some.inj h)).2]
      · exact getn_msgID h
  · cases h

theorem readLong_msgID {op : Read} {x x' : InMsg} {g : Got}
    (h : SafeSock.readLong x op = some (g,x')) : x'.msgID = x.msgID := by
  cases op with
  | bytes size => exact getn_msgID h
  | ptr delim => exact getPtr_msgID h
  | peek =>
    unfold SafeSock.readLong InMsg.peek at h
    dsimp only at h
    split at h
    · obtain ⟨l,-,hl⟩ := Option.bind_eq_some_iff.mp h
      obtain ⟨c,-,heq⟩ := Option.map_eq_some_iff.mp hl
      rw [(Prod.mk.inj heq).2]
    · cases h

end

end InMsg

end Condor.Io
