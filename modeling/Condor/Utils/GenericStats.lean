import Mathlib.Algebra.BigOperators.Group.List.Basic
import Condor.Lib.Ring
import Condor.Lib.Run

/-!
# Windowed statistics

`ring_buffer` and `stats_entry_recent`. A cell that `new` allocates holds no value until it is
written.
-/

namespace Condor.Utils

inductive StatsFault
  | modZero
  | outOfBounds
  | indeterminate
  | unexpected
  deriving DecidableEq

structure RingBuffer (T : Type) where
  cMax : Int
  cAlloc : Int
  ixHead : Int
  cItems : Int
  pbuf : Option (List (Option T))
  deriving DecidableEq

namespace RingBuffer

variable {T : Type}

def mod (a b : Int) : Except StatsFault Int :=
  if b = 0 then .error .modZero else .ok (a.tmod b)

def allocated (n : Int) : List (Option T) := List.replicate n.toNat none

def new (cSize : Int) : RingBuffer T :=
  if 0 < cSize then ⟨cSize,cSize,0,0,some (allocated cSize)⟩ else ⟨0,0,0,0,none⟩

def store (cells : List (Option T)) (i : Int) (v : T) : Except StatsFault (List (Option T)) :=
  if 0 ≤ i ∧ i < cells.length then .ok (cells.set i.toNat (some v)) else .error .outOfBounds

/-- `pbuf[i]` -/
def load (b : RingBuffer T) (i : Int) : Except StatsFault T :=
  match b.pbuf with
  | none => .error .outOfBounds
  | some cells =>
    if i < 0 then .error .outOfBounds
    else
      match cells[i.toNat]? with
      | none => .error .outOfBounds
      | some none => .error .indeterminate
      | some (some v) => .ok v

/-- `pbuf[i] = v` -/
def assign (b : RingBuffer T) (i : Int) (v : T) : Except StatsFault (RingBuffer T) :=
  match b.pbuf with
  | none => .error .outOfBounds
  | some cells => do
    let cells ← store cells i v
    pure { b with pbuf := some cells }

/-- `operator[]` -/
def get (b : RingBuffer T) (ix : Int) : Except StatsFault T :=
  if b.pbuf.isNone ∨ b.cMax = 0 then b.load 0
  else do
    let i ← mod (b.ixHead + ix + b.cMax) b.cMax
    b.load i

def clear (b : RingBuffer T) : RingBuffer T := { b with ixHead := 0, cItems := 0 }

def sumFrom [Add T] (b : RingBuffer T) : Nat → Int → T → Except StatsFault T
  | 0, _, tot => .ok tot
  | n + 1, ix, tot => do
    let v ← b.get ix
    b.sumFrom n (ix - 1) (tot + v)

def sum [Add T] [Zero T] (b : RingBuffer T) : Except StatsFault T :=
  b.sumFrom b.cItems.toNat 0 0

def mustCopy (b : RingBuffer T) (cSize : Int) : Bool :=
  decide (0 < b.cItems) && (decide (cSize < b.ixHead) || decide (b.ixHead - b.cItems + 1 < 0))

def copyFrom (b : RingBuffer T) (cSize cCopy : Int) :
    Nat → Int → List (Option T) → Except StatsFault (List (Option T))
  | 0, _, p => .ok p
  | n + 1, ix, p => do
    let v ← b.get ix
    let j ← mod (ix + cCopy) cSize
    let p ← store p j v
    b.copyFrom cSize cCopy n (ix - 1) p

def newAlloc (b : RingBuffer T) (cSize : Int) : Int :=
  if b.cAlloc = 0 then cSize else cSize + 15 - cSize.tmod 16

def reallocated (b : RingBuffer T) (cSize : Int) : Except StatsFault (RingBuffer T) := do
  let cNew := b.newAlloc cSize
  match b.pbuf with
  | none => pure ⟨cSize,cNew,0,0,some (allocated cNew)⟩
  | some _ =>
    let p ← b.copyFrom cSize b.cItems b.cItems.toNat 0 (allocated cNew)
    pure ⟨cSize,cNew,b.cItems,b.cItems,some p⟩

def setSize (b : RingBuffer T) (cSize : Int) : Except StatsFault (RingBuffer T) := do
  if cSize < 0 then return b
  if b.cAlloc < cSize ∨ b.mustCopy cSize then b.reallocated cSize
  else if cSize < b.cMax ∧ 0 < b.cItems then
    let ixHead ← mod (b.ixHead + cSize) cSize
    pure { b with ixHead, cItems := min b.cItems cSize, cMax := cSize }
  else pure { b with cMax := cSize }

def pushZero [Zero T] (b : RingBuffer T) : Except StatsFault (RingBuffer T) := do
  if b.cMax < b.cItems then throw .unexpected
  let b ← if b.pbuf.isNone then b.setSize 2 else pure b
  let ixHead ← mod (b.ixHead + 1) b.cMax
  let cItems := if b.cItems < b.cMax then b.cItems + 1 else b.cItems
  { b with ixHead, cItems }.assign ixHead 0

def add [Add T] (b : RingBuffer T) (val : T) : Except StatsFault (RingBuffer T) := do
  if b.pbuf.isNone ∨ b.cMax = 0 then throw .unexpected
  let v ← b.load b.ixHead
  b.assign b.ixHead (v + val)

def advanceLoop [Zero T] : Nat → RingBuffer T → Except StatsFault (RingBuffer T)
  | 0, b => .ok b
  | n + 1, b => do
    let b ← b.pushZero
    advanceLoop n b

def advanceBy [Zero T] (b : RingBuffer T) (cAdvance : Int) : Except StatsFault (RingBuffer T) :=
  if b.cMax ≤ 0 then .ok b else advanceLoop cAdvance.toNat b

def accumLoop [Add T] [Zero T] : Nat → RingBuffer T → T → Except StatsFault (RingBuffer T × T)
  | 0, b, accum => .ok (b,accum)
  | n + 1, b, accum => do
    let accum ←
      if b.cItems = b.cMax then do
        let i ← mod (b.ixHead + 1) b.cMax
        let v ← b.load i
        pure (accum + v)
      else pure accum
    let b ← b.pushZero
    accumLoop n b accum

def advanceAccum [Add T] [Zero T] (b : RingBuffer T) (cAdvance : Int) (accum : T) :
    Except StatsFault (RingBuffer T × T) :=
  if b.cMax ≤ 0 then .ok (b,accum) else accumLoop cAdvance.toNat b accum

end RingBuffer

structure StatsEntryRecent (T : Type) where
  value : T
  recent : T
  buf : RingBuffer T
  deriving DecidableEq

namespace StatsEntryRecent

variable {T : Type} [AddCommGroup T]

def new (cRecentMax : Int) : StatsEntryRecent T := ⟨0,0,RingBuffer.new cRecentMax⟩

def clear (s : StatsEntryRecent T) : StatsEntryRecent T := ⟨0,0,s.buf.clear⟩

def add (s : StatsEntryRecent T) (val : T) : Except StatsFault (StatsEntryRecent T) := do
  let s := { s with value := s.value + val, recent := s.recent + val }
  if 0 < s.buf.cMax then
    let buf ← if s.buf.cItems = 0 then s.buf.pushZero else pure s.buf
    let buf ← buf.add val
    pure { s with buf }
  else pure s

def advanceAndSub (s : StatsEntryRecent T) (cSlots : Int) :
    Except StatsFault (StatsEntryRecent T) :=
  if cSlots < s.buf.cMax then do
    let (buf,accum) ← s.buf.advanceAccum cSlots 0
    pure { s with recent := s.recent - accum, buf }
  else .ok { s with recent := 0, buf := s.buf.clear }

/-- The specialization of AdvanceBy for `int`. -/
def advanceBy (s : StatsEntryRecent T) (cSlots : Int) : Except StatsFault (StatsEntryRecent T) :=
  s.advanceAndSub cSlots

def advanceBySum (s : StatsEntryRecent T) (cSlots : Int) :
    Except StatsFault (StatsEntryRecent T) := do
  if cSlots ≤ 0 then return s
  let buf ← s.buf.advanceBy cSlots
  let recent ← buf.sum
  pure { s with recent, buf }

def setRecentMax (s : StatsEntryRecent T) (cRecentMax : Int) :
    Except StatsFault (StatsEntryRecent T) := do
  let buf ← s.buf.setSize cRecentMax
  pure { s with buf }

inductive Call (T : Type)
  | add (val : T)
  | advanceBy (cSlots : Int)
  | advanceAndSub (cSlots : Int)
  | clear
  | setRecentMax (cRecentMax : Nat)

def call (s : StatsEntryRecent T) : Call T → Except StatsFault (StatsEntryRecent T)
  | .add val => s.add val
  | .advanceBy cSlots => s.advanceBy cSlots
  | .advanceAndSub cSlots => s.advanceAndSub cSlots
  | .clear => .ok s.clear
  | .setRecentMax cRecentMax => s.setRecentMax cRecentMax

def step (s : StatsEntryRecent T) (c : Call T) : Option (StatsEntryRecent T) := (s.call c).toOption

end StatsEntryRecent

end Condor.Utils
