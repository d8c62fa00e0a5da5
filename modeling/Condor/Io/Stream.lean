import Condor.Lib.BigEndian
import Condor.Lib.Reader
import Condor.Utils.CString

/-!
# Integers on a stream

`put` and `get` of the six integral types, with 4-byte `int` and 8-byte `long` on a little-endian
host. In external coding every integer takes `INT_SIZE` bytes.
-/

namespace Condor.Io.Stream

open Lib

inductive Coding where
  | internal
  | external
  | ascii
  deriving DecidableEq

def intSize : Nat := 8

def sizeofShort : Nat := 2
def sizeofInt : Nat := 4
def sizeofLong : Nat := 8

def hostBytes (size n : Nat) : List Byte := (bigEndian size n).reverse

def fromHostBytes (l : List Byte) : Nat := fromBigEndian l.reverse

def signPad (nonneg : Bool) : Byte := if nonneg then 0 else 255

/-- `htonl` and `put_bytes` send the most significant byte first. -/
def putInt (code : Coding) (i : BitVec 32) : Option (List Byte) :=
  match code with
  | .internal => some (hostBytes sizeofInt i.toNat)
  | .external =>
    some (List.replicate (intSize - sizeofInt) (signPad (0 ≤ i.toInt)) ++
      bigEndian sizeofInt i.toNat)
  | .ascii => none

def putUnsignedInt (code : Coding) (i : BitVec 32) : Option (List Byte) :=
  match code with
  | .internal => some (hostBytes sizeofInt i.toNat)
  | .external => some (List.replicate (intSize - sizeofInt) 0 ++ bigEndian sizeofInt i.toNat)
  | .ascii => none

/-- A `long` is wider than an `int` and has `INT_SIZE` bytes, so there is no padding. -/
def putLong (code : Coding) (l : BitVec 64) : Option (List Byte) :=
  match code with
  | .internal => some (hostBytes sizeofLong l.toNat)
  | .external => some (bigEndian sizeofLong l.toNat)
  | .ascii => none

def putUnsignedLong (code : Coding) (l : BitVec 64) : Option (List Byte) :=
  match code with
  | .internal => some (hostBytes sizeofLong l.toNat)
  | .external => some (bigEndian sizeofLong l.toNat)
  | .ascii => none

def putShort (code : Coding) (s : BitVec 16) : Option (List Byte) :=
  match code with
  | .internal => some (hostBytes sizeofShort s.toNat)
  | .external => putInt code (s.signExtend 32)
  | .ascii => none

def putUnsignedShort (code : Coding) (s : BitVec 16) : Option (List Byte) :=
  match code with
  | .internal => some (hostBytes sizeofShort s.toNat)
  | .external => putUnsignedInt code (s.setWidth 32)
  | .ascii => none

/-- A `get` on the bytes still to come. -/
abbrev Get (α : Type) := Reader Byte Unit α

def fail {α : Type} : Get α := fun s => (.error (),s)

/-- `get_bytes`: all of the bytes, or there are not as many. -/
def getBytes (n : Nat) : Get (List Byte) := fun s =>
  if n ≤ s.length then (.ok (s.take n),s.drop n) else (.error (),[])

/-- The overflow bytes must be those that the sender of this number would have written. -/
def checkPad (pad : List Byte) (sign : Byte) (i : BitVec 32) : Get (BitVec 32) :=
  if pad.all (· == sign) then pure i else fail

def getInt (code : Coding) : Get (BitVec 32) :=
  match code with
  | .internal => do
    let i ← getBytes sizeofInt
    return BitVec.ofNat 32 (fromHostBytes i)
  | .external => do
    let pad ← getBytes (intSize - sizeofInt)
    let tmp ← getBytes sizeofInt
    checkPad pad (signPad (0 ≤ (BitVec.ofNat 32 (fromBigEndian tmp)).toInt))
      (BitVec.ofNat 32 (fromBigEndian tmp))
  | .ascii => fail

def getUnsignedInt (code : Coding) : Get (BitVec 32) :=
  match code with
  | .internal => do
    let i ← getBytes sizeofInt
    return BitVec.ofNat 32 (fromHostBytes i)
  | .external => do
    let pad ← getBytes (intSize - sizeofInt)
    let tmp ← getBytes sizeofInt
    checkPad pad 0 (BitVec.ofNat 32 (fromBigEndian tmp))
  | .ascii => fail

def getLong (code : Coding) : Get (BitVec 64) :=
  match code with
  | .internal => do
    let l ← getBytes sizeofLong
    return BitVec.ofNat 64 (fromHostBytes l)
  | .external => do
    let l ← getBytes sizeofLong
    return BitVec.ofNat 64 (fromBigEndian l)
  | .ascii => fail

def getUnsignedLong (code : Coding) : Get (BitVec 64) :=
  match code with
  | .internal => do
    let l ← getBytes sizeofLong
    return BitVec.ofNat 64 (fromHostBytes l)
  | .external => do
    let l ← getBytes sizeofLong
    return BitVec.ofNat 64 (fromBigEndian l)
  | .ascii => fail

def getShort (code : Coding) : Get (BitVec 16) :=
  match code with
  | .internal => do
    let s ← getBytes sizeofShort
    return BitVec.ofNat 16 (fromHostBytes s)
  | .external => do
    let i ← getInt code
    return i.setWidth 16
  | .ascii => fail

def getUnsignedShort (code : Coding) : Get (BitVec 16) :=
  match code with
  | .internal => do
    let s ← getBytes sizeofShort
    return BitVec.ofNat 16 (fromHostBytes s)
  | .external => do
    let i ← getUnsignedInt code
    return i.setWidth 16
  | .ascii => fail

inductive IntegralType where
  | short
  | unsignedShort
  | int
  | unsignedInt
  | long
  | unsignedLong
  deriving DecidableEq

namespace IntegralType

@[reducible] def width : IntegralType → Nat
  | .short | .unsignedShort => 16
  | .int | .unsignedInt => 32
  | .long | .unsignedLong => 64

def signed : IntegralType → Bool
  | .short | .int | .long => true
  | .unsignedShort | .unsignedInt | .unsignedLong => false

def value (t : IntegralType) (x : BitVec t.width) : Int := if t.signed then x.toInt else x.toNat

def Fits (t : IntegralType) (v : Int) : Prop := ∃ x : BitVec t.width, t.value x = v

end IntegralType

def put (code : Coding) : (t : IntegralType) → BitVec t.width → Option (List Byte)
  | .short => putShort code
  | .unsignedShort => putUnsignedShort code
  | .int => putInt code
  | .unsignedInt => putUnsignedInt code
  | .long => putLong code
  | .unsignedLong => putUnsignedLong code

def get (code : Coding) : (t : IntegralType) → Get (BitVec t.width)
  | .short => getShort code
  | .unsignedShort => getUnsignedShort code
  | .int => getInt code
  | .unsignedInt => getUnsignedInt code
  | .long => getLong code
  | .unsignedLong => getUnsignedLong code

end Condor.Io.Stream
