import Mathlib.Algebra.Order.Field.Basic
import Mathlib.Algebra.Order.BigOperators.Group.List
import Mathlib.Data.List.Count
import Mathlib.Tactic.Linarith
import Mathlib.Tactic.Ring
import Mathlib.Tactic.FieldSimp

/-!
# Dividing a machine into slots

Each slot takes its share of the machine, and what is left in the end is divided evenly between
the slots whose share is automatic. Fractions are exact rationals here.
-/

namespace Condor.Startd

open List Function Option

def autoShare : Rat := 123

def autoMem : Int := -123

/-- `(int)share` -/
def truncate (share : Rat) : Int := share.num.tdiv share.den

def IsAutoShare (share : Rat) : Prop := truncate share = truncate autoShare
deriving Decidable

/-- `CpuAttributes`, what a slot is defined to have. -/
structure CpuAttributes where
  numCpus : Int
  physMem : Int
  slotMem : Int
  virtMemFraction : Rat
  diskFraction : Rat
  executePartitionId : String

structure AvailDiskPartition where
  diskFraction : Rat := 1
  autoCount : Int := 0

structure AvailAttributes where
  numCpus : Int
  physMem : Int
  physMemAutoCount : Int := 0
  virtMemFraction : Rat := 1
  virtMemAutoCount : Int := 0
  executePartitions : String → Option AvailDiskPartition := fun _ => none

namespace AvailAttributes

def getAvailDiskPartition (a : AvailAttributes) (id : String) :
    AvailDiskPartition × AvailAttributes :=
  match a.executePartitions id with
  | some partition => (partition,a)
  | none => ({},{ a with executePartitions := update a.executePartitions id (some {}) })

def setPartition (a : AvailAttributes) (id : String) (partition : AvailDiskPartition) :
    AvailAttributes :=
  { a with executePartitions := update a.executePartitions id (some partition) }

def floor : Rat := -1 / 1000000

def newPhysMem (a : AvailAttributes) (cap : CpuAttributes) : Int :=
  if cap.physMem = autoMem then a.physMem else a.physMem - cap.physMem

def newVirtMem (a : AvailAttributes) (cap : CpuAttributes) : Rat :=
  if IsAutoShare cap.virtMemFraction then a.virtMemFraction
  else a.virtMemFraction - cap.virtMemFraction

def newDisk (partition : AvailDiskPartition) (cap : CpuAttributes) : Rat :=
  if IsAutoShare cap.diskFraction then partition.diskFraction
  else partition.diskFraction - cap.diskFraction

def decrement (a : AvailAttributes) (cap : CpuAttributes) : Bool × AvailAttributes :=
  let newCpus := a.numCpus - cap.numCpus
  let newPhysMem := a.newPhysMem cap
  let newVirtMem := a.newVirtMem cap
  let (partition,a) := a.getAvailDiskPartition cap.executePartitionId
  let newDisk := newDisk partition cap
  if newCpus < floor ∨ newPhysMem < floor ∨ newVirtMem < floor ∨ newDisk < floor then (false,a)
  else
    let a := { a with
      numCpus := newCpus
      physMem := newPhysMem
      physMemAutoCount := a.physMemAutoCount + if cap.physMem = autoMem then 1 else 0
      virtMemFraction := newVirtMem
      virtMemAutoCount := a.virtMemAutoCount + if IsAutoShare cap.virtMemFraction then 1 else 0 }
    (true,a.setPartition cap.executePartitionId ⟨newDisk,
      partition.autoCount + if IsAutoShare cap.diskFraction then 1 else 0⟩)

/-- The memory of a slot, none where the ASSERT fails. The flag says whether to go on. -/
def computeMem (a : AvailAttributes) (cap : CpuAttributes) : Option (Bool × CpuAttributes) :=
  if cap.physMem = autoMem then
    if 0 < a.physMemAutoCount then
      let newValue := a.physMem.tdiv a.physMemAutoCount
      if newValue < 1 then some (false,cap)
      else some (true,{ cap with slotMem := newValue, physMem := newValue })
    else none
  else some (true,cap)

def computeVirtMem (a : AvailAttributes) (cap : CpuAttributes) : Option (Bool × CpuAttributes) :=
  if IsAutoShare cap.virtMemFraction then
    if 0 < a.virtMemAutoCount then
      let newValue := a.virtMemFraction / a.virtMemAutoCount
      if newValue ≤ 0 then some (false,cap)
      else some (true,{ cap with virtMemFraction := newValue })
    else none
  else some (true,cap)

def computeDisk (a : AvailAttributes) (cap : CpuAttributes) :
    Option (Bool × CpuAttributes × AvailAttributes) :=
  if IsAutoShare cap.diskFraction then
    let (partition,a) := a.getAvailDiskPartition cap.executePartitionId
    if 0 < partition.autoCount then
      let newValue := partition.diskFraction / partition.autoCount
      if newValue ≤ 0 then some (false,cap,a)
      else some (true,{ cap with diskFraction := newValue },a)
    else none
  else some (true,cap,a)

/-- `computeAutoShares`: whether it succeeds, and the slot and what is available afterwards. -/
def computeAutoShares (a : AvailAttributes) (cap : CpuAttributes) :
    Option (Bool × CpuAttributes × AvailAttributes) := do
  let (ok,cap) ← a.computeMem cap
  if !ok then return (false,cap,a)
  let (ok,cap) ← a.computeVirtMem cap
  if !ok then return (false,cap,a)
  a.computeDisk cap

def decrementAll : AvailAttributes → List CpuAttributes → Option AvailAttributes
  | a, [] => some a
  | a, cap :: caps =>
    match a.decrement cap with
    | (true,a) => decrementAll a caps
    | (false,_) => none

def computeAll : AvailAttributes → List CpuAttributes → Option (List CpuAttributes)
  | _, [] => some []
  | a, cap :: caps => do
    let (_,cap,a) ← a.computeAutoShares cap
    let caps ← computeAll a caps
    return cap :: caps

/-- `AvailAttributes(map)` -/
def construct (numCpus physMem : Int) : AvailAttributes where
  numCpus := numCpus
  physMem := physMem

/-- What is known of a partition; without an entry, nothing of it is taken. -/
def partition (a : AvailAttributes) (id : String) : AvailDiskPartition :=
  (a.executePartitions id).getD {}

/-- The two agree but for entries of partitions of which nothing is taken. -/
structure Same (a b : AvailAttributes) : Prop where
  numCpus : b.numCpus = a.numCpus
  physMem : b.physMem = a.physMem
  physMemAutoCount : b.physMemAutoCount = a.physMemAutoCount
  virtMemFraction : b.virtMemFraction = a.virtMemFraction
  virtMemAutoCount : b.virtMemAutoCount = a.virtMemAutoCount
  partition : ∀ id, b.partition id = a.partition id

variable {a b : AvailAttributes} {cap : CpuAttributes} {caps : List CpuAttributes}

private theorem getAvailDiskPartition_spec (a : AvailAttributes) (id : String) :
    (a.getAvailDiskPartition id).1 = a.partition id ∧ a.Same (a.getAvailDiskPartition id).2 := by
  unfold getAvailDiskPartition
  split
  next p hp => exact ⟨by rw [partition,hp]; rfl,⟨rfl,rfl,rfl,rfl,rfl,fun _ => rfl⟩⟩
  next hp =>
    refine ⟨by rw [partition,hp]; rfl,⟨rfl,rfl,rfl,rfl,rfl,fun id' => ?_⟩⟩
    simp only [partition,update_apply]
    split
    next h => rw [h,hp]; rfl
    next h => rfl

end AvailAttributes

namespace CpuAttributes

def mem (cap : CpuAttributes) : Int := if cap.physMem = autoMem then 0 else cap.physMem

def swap (cap : CpuAttributes) : Rat :=
  if IsAutoShare cap.virtMemFraction then 0 else cap.virtMemFraction

/-- The share of the disk of a partition, nothing while it is automatic. -/
def disk (id : String) (cap : CpuAttributes) : Rat :=
  if cap.executePartitionId = id then
    if IsAutoShare cap.diskFraction then 0 else cap.diskFraction
  else 0

def autoMem (cap : CpuAttributes) : Bool := cap.physMem = Startd.autoMem

def autoSwap (cap : CpuAttributes) : Bool := IsAutoShare cap.virtMemFraction

def autoDisk (id : String) (cap : CpuAttributes) : Bool :=
  cap.executePartitionId = id ∧ IsAutoShare cap.diskFraction

end CpuAttributes

namespace AvailAttributes

variable {a b c : AvailAttributes} {cap : CpuAttributes} {caps : List CpuAttributes}

private theorem decrement_false (h : a.decrement cap = (false,b)) : a.Same b := by
  simp only [decrement] at h
  split at h
  next =>
    obtain rfl := (Prod.mk.inj h).2
    exact (a.getAvailDiskPartition_spec cap.executePartitionId).2
  next => cases h

private theorem le_of_floor {n : Int} (h : ¬(n : Rat) < floor) : 0 ≤ n := by
  by_contra hneg
  have : (n : Rat) ≤ -1 := by
    have : n ≤ -1 := by omega
    exact_mod_cast this
  apply h
  unfold floor
  linarith

structure Taken (a : AvailAttributes) (caps : List CpuAttributes) (b : AvailAttributes) :
    Prop where
  numCpus : b.numCpus = a.numCpus - (caps.map CpuAttributes.numCpus).sum
  physMem : b.physMem = a.physMem - (caps.map CpuAttributes.mem).sum
  physMemAutoCount : b.physMemAutoCount = a.physMemAutoCount + caps.countP CpuAttributes.autoMem
  virtMemFraction : b.virtMemFraction = a.virtMemFraction - (caps.map CpuAttributes.swap).sum
  virtMemAutoCount : b.virtMemAutoCount = a.virtMemAutoCount + caps.countP CpuAttributes.autoSwap
  diskFraction : ∀ id, (b.partition id).diskFraction =
    (a.partition id).diskFraction - (caps.map (CpuAttributes.disk id)).sum
  autoCount : ∀ id, (b.partition id).autoCount =
    (a.partition id).autoCount + caps.countP (CpuAttributes.autoDisk id)

structure Enough (a : AvailAttributes) : Prop where
  numCpus : 0 ≤ a.numCpus
  physMem : 0 ≤ a.physMem
  virtMemFraction : floor ≤ a.virtMemFraction
  diskFraction : ∀ id, floor ≤ (a.partition id).diskFraction

private theorem decrement_true (h : a.decrement cap = (true,b)) :
    a.Taken [cap] b ∧ (a.Enough → b.Enough) := by
  obtain ⟨hpart,hsame⟩ := a.getAvailDiskPartition_spec cap.executePartitionId
  simp only [decrement,hpart] at h
  split at h
  next => cases h
  next hfloor =>
    obtain rfl := (Prod.mk.inj h).2
    simp only [not_or] at hfloor
    obtain ⟨hcpus,hmem,hswap,hdisk⟩ := hfloor
    have hset : ∀ (d : AvailAttributes) (p : AvailDiskPartition) (id : String),
        (d.setPartition cap.executePartitionId p).partition id =
          if cap.executePartitionId = id then p else d.partition id := by
      intro d p id
      by_cases hid : cap.executePartitionId = id
      · simp [partition,setPartition,hid]
      · simp [partition,setPartition,update_of_ne (Ne.symm hid),hid]
    have hpartition := hsame.partition
    simp only [partition] at hpartition
    refine ⟨⟨?_,?_,?_,?_,?_,fun id => ?_,fun id => ?_⟩,fun he => ⟨?_,?_,?_,fun id => ?_⟩⟩
    · simp [setPartition]
    · simp only [setPartition,newPhysMem,CpuAttributes.mem,map_cons,map_nil]
      split <;> simp
    · simp [setPartition,hsame.physMemAutoCount,CpuAttributes.autoMem,countP_singleton]
    · simp only [setPartition,newVirtMem,CpuAttributes.swap,map_cons,map_nil]
      split <;> simp
    · simp [setPartition,hsame.virtMemAutoCount,CpuAttributes.autoSwap,countP_singleton]
    · rw [hset]
      split
      next hid =>
        subst hid
        simp only [newDisk,CpuAttributes.disk,if_true,map_cons,map_nil]
        split <;> simp
      next hid =>
        change ((a.getAvailDiskPartition cap.executePartitionId).2.partition id).diskFraction = _
        rw [hsame.partition]
        simp [CpuAttributes.disk,hid]
    · rw [hset]
      split
      next hid =>
        subst hid
        simp [CpuAttributes.autoDisk,countP_singleton]
      next hid =>
        change ((a.getAvailDiskPartition cap.executePartitionId).2.partition id).autoCount = _
        rw [hsame.partition]
        simp [CpuAttributes.autoDisk,hid]
    · exact le_of_floor hcpus
    · exact le_of_floor hmem
    · exact not_lt.mp hswap
    · rw [hset]
      split
      next => exact not_lt.mp hdisk
      next =>
        change floor ≤ ((a.getAvailDiskPartition cap.executePartitionId).2.partition
          id).diskFraction
        rw [hsame.partition]
        exact he.diskFraction id

theorem Taken.cons (h : a.Taken [cap] b) (h' : b.Taken caps c) : a.Taken (cap :: caps) c where
  numCpus := by
    have := h.numCpus
    rw [h'.numCpus,map_cons,sum_cons]
    simp only [map_cons,map_nil,sum_cons,sum_nil] at this
    omega
  physMem := by
    have := h.physMem
    rw [h'.physMem,map_cons,sum_cons]
    simp only [map_cons,map_nil,sum_cons,sum_nil] at this
    omega
  physMemAutoCount := by
    have := h.physMemAutoCount
    rw [h'.physMemAutoCount,this]
    simp only [countP_cons,countP_nil]
    push_cast
    ring
  virtMemFraction := by
    have := h.virtMemFraction
    rw [h'.virtMemFraction,this]
    simp only [map_cons,map_nil,sum_cons,sum_nil]
    ring
  virtMemAutoCount := by
    have := h.virtMemAutoCount
    rw [h'.virtMemAutoCount,this]
    simp only [countP_cons,countP_nil]
    push_cast
    ring
  diskFraction id := by
    rw [h'.diskFraction,h.diskFraction]
    simp only [map_cons,map_nil,sum_cons,sum_nil]
    ring
  autoCount id := by
    rw [h'.autoCount,h.autoCount]
    simp only [countP_cons,countP_nil]
    push_cast
    ring

private theorem taken_of_decrementAll (h : decrementAll a caps = some b) :
    a.Taken caps b ∧ (a.Enough → b.Enough) := by
  induction caps generalizing a with
  | nil =>
    obtain rfl := some.inj h
    exact ⟨⟨by simp,by simp,by simp,by simp,by simp,by simp,by simp⟩,id⟩
  | cons cap caps ih =>
    rw [decrementAll] at h
    split at h
    next a' hdec =>
      obtain ⟨htaken,henough⟩ := decrement_true hdec
      obtain ⟨htaken',henough'⟩ := ih h
      exact ⟨htaken.cons htaken',fun he => henough' (henough he)⟩
    next => cases h

/-- The slot afterwards: each share is as before, or it was automatic and is now the even part of
what is available. -/
structure Shared (a : AvailAttributes) (cap cap' : CpuAttributes) : Prop where
  numCpus : cap'.numCpus = cap.numCpus
  executePartitionId : cap'.executePartitionId = cap.executePartitionId
  physMem : cap'.physMem = cap.physMem ∨ cap.autoMem = true ∧
    cap'.physMem = a.physMem.tdiv a.physMemAutoCount ∧ 1 ≤ cap'.physMem
  virtMemFraction : cap'.virtMemFraction = cap.virtMemFraction ∨ cap.autoSwap = true ∧
    cap'.virtMemFraction = a.virtMemFraction / a.virtMemAutoCount ∧ 0 < cap'.virtMemFraction
  diskFraction : cap'.diskFraction = cap.diskFraction ∨ IsAutoShare cap.diskFraction ∧
    cap'.diskFraction = (a.partition cap.executePartitionId).diskFraction /
      (a.partition cap.executePartitionId).autoCount ∧ 0 < cap'.diskFraction

structure Counted (a : AvailAttributes) (cap : CpuAttributes) : Prop where
  physMem : cap.autoMem = true → 0 < a.physMemAutoCount
  virtMem : cap.autoSwap = true → 0 < a.virtMemAutoCount
  disk : IsAutoShare cap.diskFraction → 0 < (a.partition cap.executePartitionId).autoCount

private theorem computeMem_spec (h : a.Counted cap) : ∃ ok cap', a.computeMem cap = some (ok,cap') ∧
    a.Shared cap cap' ∧ cap'.virtMemFraction = cap.virtMemFraction ∧
      cap'.diskFraction = cap.diskFraction := by
  unfold computeMem
  split
  next hauto =>
    have hauto : cap.autoMem = true := by simpa [CpuAttributes.autoMem] using hauto
    rw [if_pos (h.physMem hauto)]
    simp only
    split
    next => exact ⟨_,_,rfl,⟨rfl,rfl,.inl rfl,.inl rfl,.inl rfl⟩,rfl,rfl⟩
    next hpos =>
      exact ⟨_,_,rfl,⟨rfl,rfl,.inr ⟨hauto,rfl,not_lt.mp hpos⟩,.inl rfl,.inl rfl⟩,rfl,rfl⟩
  next => exact ⟨_,_,rfl,⟨rfl,rfl,.inl rfl,.inl rfl,.inl rfl⟩,rfl,rfl⟩

private theorem computeVirtMem_spec (h : cap.autoSwap = true → 0 < a.virtMemAutoCount) :
    ∃ ok cap', a.computeVirtMem cap = some (ok,cap') ∧
      cap' = { cap with virtMemFraction := cap'.virtMemFraction } ∧
      (cap'.virtMemFraction = cap.virtMemFraction ∨ cap.autoSwap = true ∧
        cap'.virtMemFraction = a.virtMemFraction / a.virtMemAutoCount ∧
          0 < cap'.virtMemFraction) := by
  unfold computeVirtMem
  split
  next hauto =>
    have hauto : cap.autoSwap = true := by simpa [CpuAttributes.autoSwap] using hauto
    rw [if_pos (h hauto)]
    simp only
    split
    next => exact ⟨_,_,rfl,rfl,.inl rfl⟩
    next hpos => exact ⟨_,_,rfl,rfl,.inr ⟨hauto,rfl,not_le.mp hpos⟩⟩
  next => exact ⟨_,_,rfl,rfl,.inl rfl⟩

private theorem computeDisk_spec
    (h : IsAutoShare cap.diskFraction → 0 < (a.partition cap.executePartitionId).autoCount) :
    ∃ ok cap' b, a.computeDisk cap = some (ok,cap',b) ∧ a.Same b ∧
      cap' = { cap with diskFraction := cap'.diskFraction } ∧
      (cap'.diskFraction = cap.diskFraction ∨ IsAutoShare cap.diskFraction ∧
        cap'.diskFraction = (a.partition cap.executePartitionId).diskFraction /
          (a.partition cap.executePartitionId).autoCount ∧ 0 < cap'.diskFraction) := by
  obtain ⟨hpart,hsame⟩ := a.getAvailDiskPartition_spec cap.executePartitionId
  unfold computeDisk
  split
  next hauto =>
    simp only [hpart]
    rw [if_pos (h hauto)]
    split
    next => exact ⟨_,_,_,rfl,hsame,rfl,.inl rfl⟩
    next hpos => exact ⟨_,_,_,rfl,hsame,rfl,.inr ⟨hauto,rfl,not_le.mp hpos⟩⟩
  next => exact ⟨_,_,_,rfl,⟨rfl,rfl,rfl,rfl,rfl,fun _ => rfl⟩,rfl,.inl rfl⟩

private theorem computeAutoShares_spec (h : a.Counted cap) :
    ∃ ok cap' b, a.computeAutoShares cap = some (ok,cap',b) ∧ a.Same b ∧ a.Shared cap cap' := by
  have hrfl : a.Same a := ⟨rfl,rfl,rfl,rfl,rfl,fun _ => rfl⟩
  obtain ⟨ok1,cap1,hmem,hshared1,hvirt1,hdisk1⟩ := computeMem_spec h
  have hid1 := hshared1.executePartitionId
  have hauto1 : cap1.autoSwap = cap.autoSwap := by rw [CpuAttributes.autoSwap,hvirt1]; rfl
  obtain ⟨ok2,cap2,hvirt,heq2,hcase2⟩ := @computeVirtMem_spec a cap1
    (by rw [hauto1]; exact h.virtMem)
  rw [hvirt1,hauto1] at hcase2
  have hshared2 : a.Shared cap cap2 := by
    rw [heq2]
    exact ⟨hshared1.numCpus,hid1,hshared1.physMem,hcase2,.inl hdisk1⟩
  have hid2 : cap2.executePartitionId = cap.executePartitionId := hshared2.executePartitionId
  have hdisk2 : cap2.diskFraction = cap.diskFraction := by
    rw [heq2]
    exact hdisk1
  obtain ⟨ok3,cap3,b,hdisk,hsame,heq3,hcase3⟩ := @computeDisk_spec a cap2
    (by rw [hdisk2,hid2]; exact h.disk)
  rw [hdisk2,hid2] at hcase3
  have hshared3 : a.Shared cap cap3 := by
    rw [heq3]
    exact ⟨hshared2.numCpus,hid2,hshared2.physMem,hshared2.virtMemFraction,hcase3⟩
  rw [computeAutoShares,hmem]
  cases ok1 with
  | false => exact ⟨_,_,_,rfl,hrfl,hshared1⟩
  | true =>
    simp only [bind_eq_bind,bind_some,Bool.not_true,Bool.false_eq_true,if_false,hvirt]
    cases ok2 with
    | false => exact ⟨_,_,_,rfl,hrfl,hshared2⟩
    | true => exact ⟨_,_,_,hdisk,hsame,hshared3⟩

theorem Same.counted (h : a.Same b) (hc : a.Counted cap) : b.Counted cap where
  physMem := by
    rw [h.physMemAutoCount]
    exact hc.physMem
  virtMem := by
    rw [h.virtMemAutoCount]
    exact hc.virtMem
  disk := by
    rw [h.partition]
    exact hc.disk

variable {cap' : CpuAttributes}

private theorem Same.shared (h : a.Same b) (hs : b.Shared cap cap') :
    a.Shared cap cap' where
  numCpus := hs.numCpus
  executePartitionId := hs.executePartitionId
  physMem := by
    rw [← h.physMem,← h.physMemAutoCount]
    exact hs.physMem
  virtMemFraction := by
    rw [← h.virtMemFraction,← h.virtMemAutoCount]
    exact hs.virtMemFraction
  diskFraction := by
    rw [← h.partition]
    exact hs.diskFraction

private theorem computeAll_spec (h : ∀ cap ∈ caps, a.Counted cap) :
    ∃ caps', computeAll a caps = some caps' ∧ List.Forall₂ a.Shared caps caps' := by
  induction caps generalizing a with
  | nil => exact ⟨[],rfl,.nil⟩
  | cons cap caps ih =>
    obtain ⟨ok,cap',b,hcap,hsame,hshared⟩ := computeAutoShares_spec (h cap mem_cons_self)
    obtain ⟨caps',hcaps,hall⟩ := ih (a := b) fun c hc =>
      hsame.counted (h c (mem_cons_of_mem _ hc))
    refine ⟨cap' :: caps',?_,.cons hshared (hall.imp fun _ _ => hsame.shared)⟩
    rw [computeAll,hcap]
    simp only [bind_eq_bind,bind_some,hcaps]
    rfl

private theorem sum_shares_le {R : Type} [CommRing R] [LinearOrder R] [IsStrictOrderedRing R]
    (share : CpuAttributes → R) (auto : CpuAttributes → Bool) (part : R)
    {caps' : List CpuAttributes}
    (h : List.Forall₂ (fun c c' => share c' ≤ share c + if auto c then part else 0) caps caps') :
    (caps'.map share).sum ≤ (caps.map share).sum + caps.countP auto * part := by
  induction h with
  | nil => simp
  | @cons c c' caps caps' hc _ ih =>
    simp only [map_cons,sum_cons,countP_cons]
    push_cast
    split at hc <;> simp_all <;> linarith

private theorem count_mul_part_le (avail : Rat) (n : Nat) :
    (n : Rat) * (if 0 < avail then avail / n else 0) ≤ if 0 < avail then avail else 0 := by
  split
  next hpos =>
    by_cases hn : n = 0
    · simp [hn]
      exact le_of_lt hpos
    · rw [mul_div_cancel₀]
      exact_mod_cast hn
  next => simp

theorem mem_le (ha : 0 ≤ a.physMem) (hc : 0 ≤ a.physMemAutoCount) (h : a.Shared cap cap') :
    cap'.mem ≤ cap.mem + if cap.autoMem then a.physMem.tdiv a.physMemAutoCount else 0 := by
  have hpart : 0 ≤ a.physMem.tdiv a.physMemAutoCount := Int.tdiv_nonneg ha hc
  rcases h.physMem with heq | ⟨hauto,heq,hpos⟩
  · have hmem : cap'.mem = cap.mem := by rw [CpuAttributes.mem,heq]; rfl
    rw [hmem]
    split <;> omega
  · have hmem : cap.mem = 0 := by
      simp only [CpuAttributes.autoMem,decide_eq_true_eq] at hauto
      rw [CpuAttributes.mem,if_pos hauto]
    rw [if_pos hauto,hmem,CpuAttributes.mem]
    split <;> omega

private theorem share_le {old new avail : Rat} {n : Int} {auto : Bool}
    (h : new = old ∨ auto = true ∧ new = avail / n ∧ 0 < new) (hn : auto = true → 0 < n)
    (hold : auto = true ↔ IsAutoShare old) :
    (if IsAutoShare new then 0 else new) ≤ (if IsAutoShare old then 0 else old) +
      if auto then (if 0 < avail then avail / n else 0) else 0 := by
  have hpart : auto = true → 0 ≤ if 0 < avail then avail / (n : Rat) else 0 := by
    intro hauto
    have hpos : (0 : Rat) < n := by exact_mod_cast hn hauto
    split
    next h => exact le_of_lt (div_pos h hpos)
    next => exact le_refl _
  rcases h with rfl | ⟨hauto,heq,hpos⟩
  · by_cases hauto : auto = true
    · rw [if_pos hauto]
      linarith [hpart hauto]
    · rw [if_neg hauto,add_zero]
  · have havail : 0 < avail := by
      have hn' : (0 : Rat) < n := by exact_mod_cast hn hauto
      rw [heq] at hpos
      by_contra hle
      have := div_nonpos_of_nonpos_of_nonneg (not_lt.mp hle) (le_of_lt hn')
      linarith
    rw [if_pos (hold.mp hauto),if_pos hauto,if_pos havail,← heq,zero_add]
    split
    next => exact le_of_lt hpos
    next => exact le_refl _

private theorem disk_le (id : String) (hc : a.Counted cap)
    (h : a.Shared cap cap') : cap'.disk id ≤ cap.disk id + if cap.autoDisk id then
      (if 0 < (a.partition id).diskFraction then
        (a.partition id).diskFraction / (a.partition id).autoCount else 0) else 0 := by
  unfold CpuAttributes.disk
  rw [h.executePartitionId]
  by_cases hid : cap.executePartitionId = id
  · subst hid
    have hauto : cap.autoDisk cap.executePartitionId = true ↔ IsAutoShare cap.diskFraction := by
      simp [CpuAttributes.autoDisk]
    rw [if_pos rfl,if_pos rfl]
    apply share_le _ (fun ha => hc.disk (hauto.mp ha)) hauto
    rw [hauto]
    exact h.diskFraction
  · have hauto : cap.autoDisk id = false := by simp [CpuAttributes.autoDisk,hid]
    rw [if_neg hid,if_neg hid,hauto]
    simp

private theorem numCpus_eq {caps' : List CpuAttributes} (h : List.Forall₂ a.Shared caps caps') :
    caps'.map CpuAttributes.numCpus = caps.map CpuAttributes.numCpus := by
  induction h with
  | nil => rfl
  | cons h _ ih => rw [map_cons,map_cons,h.numCpus,ih]

private theorem countP_pos_of_mem {auto : CpuAttributes → Bool} (hcap : cap ∈ caps)
    (h : auto cap = true) :
    0 < caps.countP auto := List.countP_pos_iff.mpr ⟨cap,hcap,h⟩

private theorem swap_total_le (total : Rat) {avail : Rat} (htotal : total = 1 - avail)
    (havail : floor ≤ avail) :
    total + (if 0 < avail then avail else 0) ≤ 1 + 1 / 1000000 := by
  unfold floor at havail
  split <;> linarith

/-- The slots never get more than the machine has, no ASSERT fails, so that the automatic shares
are computed, and a slot for which there is not enough changes nothing. -/
theorem slots_fit {numCpus physMem : Int} (hcpus : 0 ≤ numCpus) (hmem : 0 ≤ physMem)
    (caps : List CpuAttributes) :
    (∀ (a : AvailAttributes) (cap : CpuAttributes) (b : AvailAttributes),
      a.decrement cap = (false,b) → a.Same b) ∧
    ∀ b, decrementAll (construct numCpus physMem) caps = some b →
      ∃ caps', computeAll b caps = some caps' ∧
        (caps'.map CpuAttributes.numCpus).sum ≤ numCpus ∧
        (caps'.map CpuAttributes.mem).sum ≤ physMem ∧
        (caps'.map CpuAttributes.swap).sum ≤ 1 + 1 / 1000000 ∧
        ∀ id, (caps'.map (CpuAttributes.disk id)).sum ≤ 1 + 1 / 1000000 := by
  refine ⟨fun a cap b h => decrement_false h,fun b hb => ?_⟩
  obtain ⟨htaken,henough⟩ := taken_of_decrementAll hb
  have henough : b.Enough := by
    apply henough
    refine ⟨hcpus,hmem,?_,fun id => ?_⟩ <;> simp [construct,partition,floor] <;> norm_num
  have hmemCount : b.physMemAutoCount = caps.countP CpuAttributes.autoMem := by
    simpa [construct] using htaken.physMemAutoCount
  have hswapCount : b.virtMemAutoCount = caps.countP CpuAttributes.autoSwap := by
    simpa [construct] using htaken.virtMemAutoCount
  have hdiskCount : ∀ id, (b.partition id).autoCount = caps.countP (CpuAttributes.autoDisk id) := by
    intro id
    simpa [construct,partition] using htaken.autoCount id
  have hcounted : ∀ cap ∈ caps, b.Counted cap := by
    intro cap hcap
    refine ⟨fun h => ?_,fun h => ?_,fun h => ?_⟩
    · rw [hmemCount]
      exact_mod_cast countP_pos_of_mem hcap h
    · rw [hswapCount]
      exact_mod_cast countP_pos_of_mem hcap h
    · rw [hdiskCount]
      have : CpuAttributes.autoDisk cap.executePartitionId cap = true := by
        simpa [CpuAttributes.autoDisk] using h
      exact_mod_cast countP_pos_of_mem hcap this
  obtain ⟨caps',hcaps',hall⟩ := computeAll_spec hcounted
  have hboth := (forall₂_and_left caps caps').mpr ⟨hcounted,hall⟩
  refine ⟨caps',hcaps',?_,?_,?_,fun id => ?_⟩
  · have htotal := htaken.numCpus
    have hleft := henough.numCpus
    simp only [construct] at htotal
    rw [numCpus_eq hall]
    omega
  · have hsum := sum_shares_le _ CpuAttributes.autoMem _
      (hall.imp fun _ _ => mem_le henough.physMem (by rw [hmemCount]; exact Int.natCast_nonneg _))
    have hdiv := Int.mul_tdiv_self_le (k := b.physMemAutoCount) henough.physMem
    have htotal := htaken.physMem
    rw [← hmemCount] at hsum
    simp only [construct] at htotal
    omega
  · have hsum := sum_shares_le CpuAttributes.swap CpuAttributes.autoSwap
      (if 0 < b.virtMemFraction then b.virtMemFraction / b.virtMemAutoCount else 0)
      (hboth.imp fun c c' h => share_le h.2.virtMemFraction h.1.virtMem
        (by simp [CpuAttributes.autoSwap]))
    have hpart := count_mul_part_le b.virtMemFraction (caps.countP CpuAttributes.autoSwap)
    have htotal := swap_total_le (caps.map CpuAttributes.swap).sum
      (by rw [htaken.virtMemFraction]; simp [construct]) henough.virtMemFraction
    rw [hswapCount] at hsum
    push_cast at hsum
    linarith
  · have hsum := sum_shares_le (CpuAttributes.disk id) (CpuAttributes.autoDisk id)
      (if 0 < (b.partition id).diskFraction then
        (b.partition id).diskFraction / (b.partition id).autoCount else 0)
      (hboth.imp fun c c' h => disk_le id h.1 h.2)
    have hpart := count_mul_part_le (b.partition id).diskFraction
      (caps.countP (CpuAttributes.autoDisk id))
    have htotal := swap_total_le (caps.map (CpuAttributes.disk id)).sum
      (by rw [htaken.diskFraction]; simp [construct,partition]) (henough.diskFraction id)
    rw [hdiskCount] at hsum
    push_cast at hsum
    linarith

def twoSlots : List CpuAttributes :=
  [⟨1,512,512,1 / 2,autoShare,"a"⟩,⟨1,autoMem,0,autoShare,autoShare,"a"⟩]

theorem slots_fit_two : ∃ b caps', decrementAll (construct 2 1024) twoSlots = some b ∧
    computeAll b twoSlots = some caps' ∧ (caps'.map CpuAttributes.numCpus).sum ≤ 2 ∧
    (caps'.map CpuAttributes.mem).sum ≤ 1024 := by
  have hpass : (decrementAll (construct 2 1024) twoSlots).isSome = true := by decide +kernel
  obtain ⟨b,hb⟩ := isSome_iff_exists.mp hpass
  obtain ⟨caps',hcaps,hcpus,hmem,-⟩ := (slots_fit (by decide) (by decide) twoSlots).2 b hb
  exact ⟨b,caps',hb,hcaps,hcpus,hmem⟩

end AvailAttributes

end Condor.Startd
