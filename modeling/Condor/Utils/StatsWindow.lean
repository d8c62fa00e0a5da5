import Mathlib.Tactic.Abel
import Condor.Utils.GenericStats

/-!
# The window of a statistic

A window holds the totals of the most recent slots, the newest first. The buffer refines the window
as long as a change of its size leaves room behind the head.
-/

namespace Condor.Utils

open Condor.Lib List Option

variable {T : Type}

structure Window (T : Type) where
  max : Nat
  slots : List T
  fits : slots.length ≤ max

namespace Window

def start (max : Nat) : Window T := ⟨max,[],Nat.zero_le max⟩

def clear (w : Window T) : Window T := ⟨w.max,[],Nat.zero_le w.max⟩

def resize (w : Window T) (max : Nat) : Window T :=
  ⟨max,w.slots.take max,length_take_le max w.slots⟩

def push (w : Window T) (x : T) : Window T :=
  ⟨w.max,(x :: w.slots).take w.max,length_take_le _ _⟩

def add [Add T] (w : Window T) (val : T) : Window T :=
  match w.slots,w.fits with
  | [],_ => w.push val
  | x :: l,h => ⟨w.max,(x + val) :: l,h⟩

/-- Open a number of slots, or forget all of them when the window would only hold new ones. -/
def advance [Zero T] (w : Window T) (cSlots : Int) : Window T :=
  if cSlots < w.max then
    ⟨w.max,(List.replicate cSlots.toNat 0 ++ w.slots).take w.max,length_take_le _ _⟩
  else w.clear

def call [Add T] [Zero T] (w : Window T) : StatsEntryRecent.Call T → Window T
  | .add val => w.add val
  | .advanceBy cSlots => w.advance cSlots
  | .advanceAndSub cSlots => w.advance cSlots
  | .clear => w.clear
  | .setRecentMax cRecentMax => w.resize cRecentMax

private theorem slots_push (w : Window T) (x : T) : (w.push x).slots = (x :: w.slots).take w.max :=
  rfl

theorem slots_eq_nil {w : Window T} (h : w.max = 0) : w.slots = [] :=
  eq_nil_of_length_eq_zero (Nat.le_zero.mp (h ▸ w.fits))

theorem sum_add [AddCommGroup T] {w : Window T} (hmax : 0 < w.max) (val : T) :
    (w.add val).slots.sum = w.slots.sum + val := by
  obtain ⟨max,slots,fits⟩ := w
  cases slots with
  | nil =>
    obtain ⟨n,rfl⟩ : ∃ n, max = n + 1 := ⟨max - 1,by simp at hmax; omega⟩
    simp [add,push]
  | cons x l =>
    simp only [add,sum_cons]
    abel

def pushes [Zero T] (w : Window T) (n : Nat) : Window T :=
  ⟨w.max,(List.replicate n 0 ++ w.slots).take w.max,length_take_le _ _⟩

private theorem pushes_zero [Zero T] (w : Window T) : w.pushes 0 = w := by
  obtain ⟨max,slots,fits⟩ := w
  simp [pushes,take_of_length_le fits]

private theorem pushes_push [Zero T] (w : Window T) (n : Nat) : (w.push 0).pushes n = w.pushes
    (n + 1) := by
  have htake : (List.replicate n 0 ++ (0 :: w.slots).take w.max).take w.max =
      (List.replicate (n + 1) 0 ++ w.slots).take w.max := by
    rw [replicate_succ',append_assoc,singleton_append,take_append,
      take_append,take_take,Nat.min_eq_left (Nat.sub_le _ _)]
  simp only [pushes,push]
  congr 1

section

variable [AddCommGroup T] {w : Window T}

private theorem sum_push_room (h : w.slots.length < w.max) :
    (w.push 0).slots.sum = w.slots.sum := by
  rw [slots_push,take_of_length_le (by simpa using Nat.succ_le_of_lt h),sum_cons,zero_add]

private theorem sum_push_full (h : w.slots.length = w.max) (hmax : 0 < w.max) {v : T}
    (hv : w.slots[w.max - 1]? = some v) : v + (w.push 0).slots.sum = w.slots.sum := by
  obtain ⟨n,hn⟩ : ∃ n, w.max = n + 1 := ⟨w.max - 1,by omega⟩
  rw [hn,Nat.add_sub_cancel] at hv
  have hsplit : w.slots = w.slots.take n ++ [v] := by
    have hlt := (List.getElem?_eq_some_iff.mp hv).1
    have hdrop : w.slots.drop n = [v] := by
      rw [getElem?_eq_getElem hlt] at hv
      rw [drop_eq_getElem_cons hlt,drop_eq_nil_of_le (by omega),some.inj hv]
    rw [← hdrop,take_append_drop]
  rw [slots_push,hn,take_succ_cons,sum_cons,zero_add]
  conv_rhs => rw [hsplit]
  rw [sum_append,sum_singleton,add_comm]

end

end Window

namespace RingBuffer

/-- The ring buffer holds the slots of the window. -/
structure Refines (b : RingBuffer T) (w : Window T) : Prop where
  cMax : b.cMax = w.max
  cItems : b.cItems = w.slots.length
  cAlloc : b.cAlloc = (b.pbuf.getD []).length
  ixHead : 0 ≤ b.ixHead
  ring : Ring.Holds (b.pbuf.getD []) w.max b.ixHead.toNat w.slots
  idle : w.slots = [] → b.ixHead = 0

variable {b : RingBuffer T} {w : Window T}

theorem Refines.bounds (h : b.Refines w) :
    0 ≤ b.cItems ∧ b.cItems ≤ b.cMax ∧ b.cMax ≤ b.cAlloc ∧ 0 ≤ b.ixHead ∧
      (b.ixHead < b.cMax ∨ b.cMax = 0 ∧ b.ixHead = 0) := by
  have hfits := w.fits
  have halloc := h.ring.allocated
  have hin := h.ring.inside
  have hhead := h.ixHead
  rw [h.cMax,h.cItems,h.cAlloc]
  refine ⟨by omega,by omega,by omega,hhead,?_⟩
  rcases Nat.eq_zero_or_pos w.max with hz | hpos
  · exact .inr ⟨by omega,h.idle (Window.slots_eq_nil hz)⟩
  · have := h.ring.head_lt hpos
    omega

private theorem Refines.exists_pbuf (h : b.Refines w) (hmax : 0 < w.max) :
    ∃ cells, b.pbuf = some cells ∧ Ring.Holds cells w.max b.ixHead.toNat w.slots ∧
      b.cAlloc = cells.length := by
  have hring := h.ring
  have halloc := h.cAlloc
  cases hp : b.pbuf with
  | none =>
    rw [hp] at hring
    have := hring.allocated
    simp at this
    omega
  | some cells =>
    rw [hp] at hring halloc
    exact ⟨cells,rfl,hring,halloc⟩

private theorem load_eq {cells : List (Option T)} (hp : b.pbuf = some cells) {i : Nat} {v : T}
    (hv : cells[i]? = some (some v)) : b.load i = .ok v := by
  simp [load,hp,hv]

private theorem assign_eq {cells : List (Option T)} (hp : b.pbuf = some cells) {i : Nat}
    (hi : i < cells.length) (v : T) :
    b.assign i v = .ok { b with pbuf := some (cells.set i (some v)) } := by
  simp only [assign,hp,store]
  rw [if_pos (by omega)]
  rfl

private theorem mod_eq {n m : Nat} (hm : 0 < m) : mod n m = .ok ((n % m : Nat) : Int) := by
  rw [mod,if_neg (by omega),Int.ofNat_tmod]

theorem Refines.get (h : b.Refines w) {i : Nat} {v : T} (hv : w.slots[i]? = some v) :
    b.get (-i) = .ok v := by
  have hi : i < w.slots.length := (List.getElem?_eq_some_iff.mp hv).1
  have hfits := w.fits
  obtain ⟨cells,hp,hring,-⟩ := h.exists_pbuf (by omega)
  have hhead := hring.head_lt (by omega)
  have hnat : b.ixHead + -(i : Int) + b.cMax = ((b.ixHead.toNat + w.max - i : Nat) : Int) := by
    have := h.cMax
    have := h.ixHead
    omega
  rw [RingBuffer.get,if_neg (by rw [hp,h.cMax]; simp; omega),hnat,h.cMax,mod_eq (by omega),
    ← Ring.behind_eq_mod hhead (by omega)]
  exact load_eq hp (hring.reads i v hv)

section

variable [AddCommGroup T]

theorem Refines.pushZero (h : b.Refines w) (hmax : 0 < w.max) :
    ∃ b', b.pushZero = .ok b' ∧ b'.Refines (w.push 0) := by
  have hfits := w.fits
  have hcMax := h.cMax
  have hcItems := h.cItems
  have hix := h.ixHead
  obtain ⟨cells,hp,hring,halloc⟩ := h.exists_pbuf hmax
  have hhead := hring.head_lt hmax
  have hnat : b.ixHead + 1 = ((b.ixHead.toNat + 1 : Nat) : Int) := by omega
  have hmod : mod (b.ixHead + 1) b.cMax = .ok ((Ring.ahead w.max b.ixHead.toNat : Nat) : Int) := by
    rw [hnat,hcMax,mod_eq hmax,Ring.ahead_eq_mod hhead]
  have hlt := (Ring.ahead_lt b.ixHead.toNat hmax).trans_le hring.allocated
  have hslots : (w.push 0).slots = 0 :: w.slots.take (w.max - 1) := by
    obtain ⟨n,hn⟩ : ∃ n, w.max = n + 1 := ⟨w.max - 1,by omega⟩
    simp [Window.push,hn]
  have hpush := hring.push hmax (0 : T)
  refine ⟨{ b with
    ixHead := (Ring.ahead w.max b.ixHead.toNat : Nat)
    cItems := if b.cItems < b.cMax then b.cItems + 1 else b.cItems
    pbuf := some (cells.set (Ring.ahead w.max b.ixHead.toNat) (some 0)) },?_,?_⟩
  · have hnone : b.pbuf.isNone = false := by rw [hp]; rfl
    simp only [RingBuffer.pushZero]
    rw [if_neg (by omega),hnone]
    simp only [Bool.false_eq_true,if_false]
    show (mod (b.ixHead + 1) b.cMax >>= _) = _
    rw [hmod]
    exact assign_eq (b := ⟨b.cMax,b.cAlloc,(Ring.ahead w.max b.ixHead.toNat : Nat),
      if b.cItems < b.cMax then b.cItems + 1 else b.cItems,b.pbuf⟩) hp hlt 0
  · constructor
    · exact hcMax
    · rw [hslots,hcMax,hcItems]
      simp only [length_cons,length_take]
      split <;> omega
    · simp only [getD_some,length_set]
      exact halloc
    · exact Int.natCast_nonneg _
    · rw [hslots]
      exact hpush
    · intro hnil
      rw [hslots] at hnil
      cases hnil

theorem Refines.add {x : T} {l : List T} {hfits : (x :: l).length ≤ w.max}
    (h : b.Refines ⟨w.max,x :: l,hfits⟩) (val : T) :
    ∃ b', b.add val = .ok b' ∧ b'.Refines ⟨w.max,(x + val) :: l,hfits⟩ := by
  have hmax : 0 < w.max := (Nat.succ_pos l.length).trans_le hfits
  have hcMax : b.cMax = w.max := h.cMax
  have hix := h.ixHead
  obtain ⟨cells,hp,hring,halloc⟩ := h.exists_pbuf hmax
  have hcell := hring.reads 0 x rfl
  rw [Ring.behind_zero] at hcell
  have hhead : b.ixHead = (b.ixHead.toNat : Int) := by omega
  have hlt : b.ixHead.toNat < cells.length := (hring.head_lt hmax).trans_le hring.allocated
  refine ⟨{ b with pbuf := some (cells.set b.ixHead.toNat (some (x + val))) },?_,?_⟩
  · have hload : b.load b.ixHead = .ok x := by
      rw [hhead]
      exact load_eq hp hcell
    have hassign := assign_eq hp hlt (x + val)
    rw [← hhead] at hassign
    simp only [RingBuffer.add]
    rw [if_neg (by rw [hp]; simp; omega),hload]
    exact hassign
  · refine ⟨hcMax,h.cItems,?_,hix,hring.setHead (x + val),fun hnil => by cases hnil⟩
    simp only [getD_some,length_set]
    exact halloc

theorem Refines.sumFrom (h : b.Refines w) {n i : Nat} (hi : i + n = w.slots.length) (tot : T) :
    b.sumFrom n (-(i : Int)) tot = .ok (tot + (w.slots.drop i).sum) := by
  induction n generalizing i tot with
  | zero =>
    rw [drop_eq_nil_of_le (by omega),sum_nil,add_zero]
    rfl
  | succ n ih =>
    have hlt : i < w.slots.length := by omega
    have hget := h.get (getElem?_eq_getElem hlt)
    have hnext : -(i : Int) - 1 = -((i + 1 : Nat) : Int) := by omega
    rw [RingBuffer.sumFrom,hget]
    show b.sumFrom n (-(i : Int) - 1) _ = _
    rw [hnext,ih (by omega),drop_eq_getElem_cons hlt,sum_cons,add_assoc]

theorem Refines.sum (h : b.Refines w) : b.sum = .ok w.slots.sum := by
  have hn : b.cItems.toNat = w.slots.length := by
    have := h.cItems
    omega
  have := h.sumFrom (n := w.slots.length) (i := 0) (by omega) 0
  simpa [RingBuffer.sum,hn] using this

theorem Refines.advanceLoop (h : b.Refines w) (hmax : 0 < w.max) (n : Nat) :
    ∃ b', RingBuffer.advanceLoop n b = .ok b' ∧ b'.Refines (w.pushes n) := by
  induction n generalizing b w with
  | zero =>
    rw [Window.pushes_zero]
    exact ⟨b,rfl,h⟩
  | succ n ih =>
    obtain ⟨b1,hb1,h1⟩ := h.pushZero hmax
    obtain ⟨b2,hb2,h2⟩ := ih h1 hmax
    rw [Window.pushes_push] at h2
    refine ⟨b2,?_,h2⟩
    rw [RingBuffer.advanceLoop,hb1]
    exact hb2

theorem Refines.accumLoop (h : b.Refines w) (hmax : 0 < w.max) (n : Nat) (accum : T) :
    ∃ b' accum', RingBuffer.accumLoop n b accum = .ok (b',accum') ∧ b'.Refines (w.pushes n) ∧
      accum' + (w.pushes n).slots.sum = accum + w.slots.sum := by
  induction n generalizing b w accum with
  | zero =>
    rw [Window.pushes_zero]
    exact ⟨b,accum,rfl,h,rfl⟩
  | succ n ih =>
    have hcMax := h.cMax
    have hcItems := h.cItems
    have hfits := w.fits
    obtain ⟨b1,hb1,h1⟩ := h.pushZero hmax
    by_cases hfull : w.slots.length = w.max
    · -- the oldest slot is overwritten
      obtain ⟨v,hv⟩ : ∃ v, w.slots[w.max - 1]? = some v :=
        ⟨_,getElem?_eq_getElem (by omega)⟩
      obtain ⟨cells,hp,hring,-⟩ := h.exists_pbuf hmax
      have hhead := hring.head_lt hmax
      have hread := hring.reads _ v hv
      rw [Ring.behind_last hhead,Ring.ahead_eq_mod hhead] at hread
      have hnat : b.ixHead + 1 = ((b.ixHead.toNat + 1 : Nat) : Int) := by
        have := h.ixHead
        omega
      have hmod : mod (b.ixHead + 1) b.cMax = .ok (((b.ixHead.toNat + 1) % w.max : Nat) : Int) := by
        rw [hnat,hcMax,mod_eq hmax]
      obtain ⟨b2,accum2,hb2,h2,hsum⟩ := ih h1 hmax (accum + v)
      rw [Window.pushes_push] at h2 hsum
      refine ⟨b2,accum2,?_,h2,?_⟩
      · rw [RingBuffer.accumLoop,if_pos (by omega),hmod]
        show (b.load (((b.ixHead.toNat + 1) % w.max : Nat) : Int) >>= _) = _
        rw [load_eq hp hread]
        show (b.pushZero >>= _) = _
        rw [hb1]
        exact hb2
      · rw [hsum,add_assoc,Window.sum_push_full hfull hmax hv]
    · obtain ⟨b2,accum2,hb2,h2,hsum⟩ := ih h1 hmax accum
      rw [Window.pushes_push] at h2 hsum
      refine ⟨b2,accum2,?_,h2,?_⟩
      · rw [RingBuffer.accumLoop,if_neg (by omega)]
        show (b.pushZero >>= _) = _
        rw [hb1]
        exact hb2
      · rw [hsum,Window.sum_push_room (by omega)]

end

/-- There is room behind the head when the size changes: the items are copied, or they stay with the
head inside. -/
def Fits (b : RingBuffer T) (cSize : Int) : Prop :=
  b.cItems = 0 ∨
    if b.cAlloc < cSize ∨ b.mustCopy cSize then b.cItems < cSize else b.ixHead < cSize

instance (b : RingBuffer T) (cSize : Int) : Decidable (b.Fits cSize) := by
  unfold Fits
  infer_instance

theorem length_allocated (n : Int) : (allocated n : List (Option T)).length = n.toNat :=
  length_replicate

theorem Refines.copyFrom (h : b.Refines w) {n i cSize : Nat} (hi : i + n = w.slots.length)
    (hsize : w.slots.length < cSize) {p : List (Option T)} (hp : cSize ≤ p.length)
    (hread : ∀ j v, j < i → w.slots[j]? = some v →
      p[w.slots.length - j]? = some (some v)) :
    ∃ p', b.copyFrom cSize b.cItems n (-(i : Int)) p = .ok p' ∧ p'.length = p.length ∧
      ∀ j v, w.slots[j]? = some v → p'[w.slots.length - j]? = some (some v) := by
  induction n generalizing i p with
  | zero =>
    refine ⟨p,rfl,rfl,fun j v hv => hread j v ?_ hv⟩
    have := (List.getElem?_eq_some_iff.mp hv).1
    omega
  | succ n ih =>
    have hlt : i < w.slots.length := by omega
    have hcItems := h.cItems
    have hget := h.get (getElem?_eq_getElem hlt)
    have hnat : -(i : Int) + b.cItems = ((w.slots.length - i : Nat) : Int) := by omega
    have hmod : mod (-(i : Int) + b.cItems) cSize = .ok ((w.slots.length - i : Nat) : Int) := by
      rw [hnat,mod_eq (by omega),Nat.mod_eq_of_lt (by omega)]
    have hstore : store p ((w.slots.length - i : Nat) : Int) w.slots[i] =
        .ok (p.set (w.slots.length - i) (some w.slots[i])) := by
      rw [store,if_pos (by omega)]
      rfl
    have hnext : -(i : Int) - 1 = -((i + 1 : Nat) : Int) := by omega
    have hreads : ∀ j v, j < i + 1 → w.slots[j]? = some v →
        (p.set (w.slots.length - i) (some w.slots[i]))[w.slots.length - j]? = some (some v) := by
      intro j v hj hv
      have hjlt := (List.getElem?_eq_some_iff.mp hv).1
      by_cases hji : j = i
      · subst hji
        rw [getElem?_set_self (by omega)]
        exact congrArg some ((getElem?_eq_getElem hlt).symm.trans hv)
      · rw [getElem?_set_ne (by omega)]
        exact hread j v (by omega) hv
    obtain ⟨p',hp',hlen,hall⟩ := ih (i := i + 1) (by omega)
      (p := p.set (w.slots.length - i) (some w.slots[i])) (by rwa [length_set]) hreads
    refine ⟨p',?_,by rw [hlen,length_set],hall⟩
    rw [RingBuffer.copyFrom,hget]
    show (mod (-(i : Int) + b.cItems) cSize >>= _) = _
    rw [hmod]
    show (store p ((w.slots.length - i : Nat) : Int) w.slots[i] >>= _) = _
    rw [hstore]
    show b.copyFrom cSize b.cItems n (-(i : Int) - 1) _ = _
    rw [hnext]
    exact hp'

private theorem newAlloc_ge (b : RingBuffer T) (cSize : Int) : cSize ≤ b.newAlloc cSize := by
  have := Int.tmod_lt_of_pos cSize (by omega : (0 : Int) < 16)
  unfold newAlloc
  split <;> omega

theorem Refines.reallocated (h : b.Refines w) {cSize : Nat}
    (hfits : w.slots = [] ∨ w.slots.length < cSize) :
    ∃ b', b.reallocated cSize = .ok b' ∧ b'.Refines (w.resize cSize) := by
  have hnew := b.newAlloc_ge cSize
  have hcItems := h.cItems
  have hlen : cSize ≤ (allocated (b.newAlloc cSize) : List (Option T)).length := by
    rw [length_allocated]
    omega
  have hslots : (w.resize cSize).slots = w.slots := by
    refine take_of_length_le ?_
    rcases hfits with hnil | hlt
    · rw [hnil]
      exact Nat.zero_le _
    · exact hlt.le
  have hnone : ∀ cells : List (Option T), cSize ≤ cells.length → w.slots = [] →
      Ring.Holds cells cSize 0 w.slots := fun cells hle hnil => by
    rw [hnil]
    exact Ring.Holds.nil hle
  cases hp : b.pbuf with
  | none =>
    have hnil : w.slots = [] := by
      have halloc := h.ring.allocated
      rw [hp] at halloc
      exact Window.slots_eq_nil (Nat.le_zero.mp halloc)
    refine ⟨⟨cSize,b.newAlloc cSize,0,0,some (allocated (b.newAlloc cSize))⟩,?_,?_⟩
    · simp only [RingBuffer.reallocated,hp]
      rfl
    · refine ⟨rfl,?_,?_,Int.le_refl 0,?_,fun _ => rfl⟩
      · rw [hslots,hnil]
        rfl
      · rw [getD_some,length_allocated]
        show b.newAlloc cSize = _
        omega
      · rw [hslots]
        exact hnone _ hlen hnil
  | some cells =>
    have hcopy : ∃ p, b.copyFrom cSize b.cItems b.cItems.toNat 0 (allocated (b.newAlloc cSize)) =
        .ok p ∧ p.length = (allocated (b.newAlloc cSize) : List (Option T)).length ∧
          Ring.Holds p cSize w.slots.length w.slots := by
      rcases hfits with hnil | hlt
      · have hz : b.cItems.toNat = 0 := by simp [hcItems,hnil]
        refine ⟨_,by rw [hz]; rfl,rfl,?_⟩
        rw [hnil]
        exact Ring.Holds.nil hlen
      · obtain ⟨p,hp',hpl,hreads⟩ := h.copyFrom (n := w.slots.length) (i := 0) (by omega) hlt hlen
          (fun j v hj => absurd hj (Nat.not_lt_zero j))
        refine ⟨p,?_,hpl,Ring.Holds.copied hlt (by omega) hreads⟩
        rw [show b.cItems.toNat = w.slots.length by omega]
        exact hp'
    obtain ⟨p,hp',hpl,hholds⟩ := hcopy
    refine ⟨⟨cSize,b.newAlloc cSize,b.cItems,b.cItems,some p⟩,?_,?_⟩
    · simp only [RingBuffer.reallocated,hp,hp']
      rfl
    · refine ⟨rfl,?_,?_,by show 0 ≤ b.cItems; omega,?_,?_⟩
      · rw [hslots]
        exact hcItems
      · rw [getD_some,hpl,length_allocated]
        show b.newAlloc cSize = _
        omega
      · rw [hslots]
        show Ring.Holds p cSize b.cItems.toNat w.slots
        rw [show b.cItems.toNat = w.slots.length by omega]
        exact hholds
      · intro hnil
        rw [hslots] at hnil
        show b.cItems = 0
        rw [hcItems,hnil]
        rfl

theorem mustCopy_iff {cSize : Int} : b.mustCopy cSize = true ↔
    0 < b.cItems ∧ (cSize < b.ixHead ∨ b.ixHead - b.cItems + 1 < 0) := by
  simp [mustCopy]

theorem Refines.setSize (h : b.Refines w) {cSize : Nat} (hfit : b.Fits cSize) :
    ∃ b', b.setSize cSize = .ok b' ∧ b'.Refines (w.resize cSize) ∧
      w.slots.length ≤ cSize := by
  have hcItems := h.cItems
  have hcMax := h.cMax
  have hcAlloc := h.cAlloc
  have hix := h.ixHead
  have hnil : b.cItems = 0 → w.slots = [] := fun hz =>
    eq_nil_of_length_eq_zero (by omega)
  have hsigned : ¬((cSize : Int) < 0) := by omega
  by_cases hcopy : b.cAlloc < cSize ∨ b.mustCopy cSize = true
  · have hroom : w.slots = [] ∨ w.slots.length < cSize := by
      rcases hfit with hz | hlt
      · exact .inl (hnil hz)
      · rw [if_pos hcopy] at hlt
        exact .inr (by omega)
    obtain ⟨b',hb',h'⟩ := h.reallocated hroom
    refine ⟨b',?_,h',?_⟩
    · rw [RingBuffer.setSize,if_neg hsigned,if_pos hcopy]
      exact hb'
    · rcases hroom with hz | hlt
      · rw [hz]
        exact Nat.zero_le _
      · exact hlt.le
  · have halloc : cSize ≤ (b.pbuf.getD []).length := by omega
    rcases Nat.eq_zero_or_pos w.slots.length with hz | hpos
    · have hw : w.slots = [] := eq_nil_of_length_eq_zero hz
      refine ⟨{ b with cMax := cSize },?_,?_,by omega⟩
      · rw [RingBuffer.setSize,if_neg hsigned,if_neg hcopy,if_neg (by omega)]
        rfl
      · have hslots : (w.resize cSize).slots = [] := by simp [Window.resize,hw]
        refine ⟨rfl,?_,hcAlloc,hix,?_,fun _ => h.idle hw⟩
        · rw [hslots]
          exact hcItems.trans (by rw [hz]; rfl)
        · rw [hslots]
          have hhead : b.ixHead.toNat = 0 := by rw [h.idle hw]; rfl
          rw [hhead]
          exact Ring.Holds.nil halloc
    · have hstay : b.ixHead < cSize := by
        rcases hfit with hz | hlt
        · omega
        · rwa [if_neg hcopy] at hlt
      have hwrap : w.slots.length ≤ b.ixHead.toNat + 1 := by
        have hno : ¬b.mustCopy cSize = true := fun hm => hcopy (.inr hm)
        rw [mustCopy_iff] at hno
        omega
      have hring := h.ring.resize hwrap (by omega : b.ixHead.toNat < cSize) halloc
      have hslots : (w.resize cSize).slots = w.slots := take_of_length_le hring.fits
      have href : ({ b with cMax := cSize } : RingBuffer T).Refines (w.resize cSize) := by
        refine ⟨rfl,?_,hcAlloc,hix,?_,?_⟩
        · rw [hslots]
          exact hcItems
        · rw [hslots]
          exact hring
        · rw [hslots]
          exact h.idle
      refine ⟨{ b with cMax := cSize },?_,href,hring.fits⟩
      rw [RingBuffer.setSize,if_neg hsigned,if_neg hcopy]
      by_cases hshrink : (cSize : Int) < b.cMax ∧ 0 < b.cItems
      · have hhead : (b.ixHead + cSize).tmod cSize = b.ixHead := by
          rw [Int.tmod_eq_emod_of_nonneg (by omega),Int.add_emod_right,
            Int.emod_eq_of_lt hix hstay]
        have hmod : mod (b.ixHead + cSize) cSize = .ok b.ixHead := by
          rw [mod,if_neg (by omega),hhead]
        have hmin : min b.cItems cSize = b.cItems := by
          have := hring.fits
          omega
        rw [if_pos hshrink,hmod]
        show Except.ok _ = _
        rw [hmin]
      · rw [if_neg hshrink]
        rfl

theorem Refines.clear (h : b.Refines w) : b.clear.Refines w.clear where
  cMax := h.cMax
  cItems := rfl
  cAlloc := h.cAlloc
  ixHead := Int.le_refl 0
  ring := Ring.Holds.nil h.ring.allocated
  idle := fun _ => rfl

theorem refines_new (cSize : Int) :
    (new cSize : RingBuffer T).Refines (Window.start cSize.toNat) := by
  unfold new
  split
  next hpos =>
    refine ⟨by show cSize = _; simp [Window.start]; omega,rfl,?_,Int.le_refl 0,Ring.Holds.nil ?_,
      fun _ => rfl⟩
    · rw [getD_some,length_allocated]
      show cSize = _
      omega
    · rw [getD_some,length_allocated]
      exact le_rfl
  next hneg =>
    have hz : cSize.toNat = 0 := by omega
    rw [hz]
    exact ⟨rfl,rfl,rfl,Int.le_refl 0,Ring.Holds.nil le_rfl,fun _ => rfl⟩

end RingBuffer

end Condor.Utils
