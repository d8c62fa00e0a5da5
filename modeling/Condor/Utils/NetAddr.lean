import Mathlib.Data.List.GetD
import Condor.Lib.BigEndian
import Condor.Utils.CString

/-!
# Network patterns

`condor_netaddr` holds a base address and a number of mask bits, read from `a.b.c.d/n`, `a.b.c.d/m`
or octets with a wildcard. An IPv4 address is a number in network order.
-/

namespace Condor.Net

open Lib

def slash : Byte := 47

def dot : Byte := 46

def star : Byte := 42

inductive Sockaddr where
  | v4 (addr : BitVec 32)
  | v6 (words : List (BitVec 32))
  deriving DecidableEq

structure Netaddr where
  base : Sockaddr
  maskbit : Nat
  deriving DecidableEq

/-- `(unsigned int)-1`. -/
def unset : Nat := 2^32-1

def wordMask (curmaskbit : Int) : BitVec 32 :=
  if 32 ≤ curmaskbit then BitVec.allOnes 32 else ~~~(BitVec.allOnes 32 >>> curmaskbit.toNat)

def matchWords : Int → List (BitVec 32) → List (BitVec 32) → Bool
  | curmaskbit, b :: base, t :: target =>
    if curmaskbit ≤ 0 then true
    else if b &&& wordMask curmaskbit ≠ t &&& wordMask curmaskbit then false
    else matchWords (curmaskbit - 32) base target
  | _, _, _ => true

def Netaddr.matchAddr (net : Netaddr) (target : Sockaddr) : Bool :=
  if net.maskbit = unset then false
  else
    match net.base, target with
    | .v4 base, .v4 target => matchWords (toInt net.maskbit) [base] [target]
    | .v6 base, .v6 target => matchWords (toInt net.maskbit) base target
    | _, _ => false

/-- The first loop of `convert_maskaddr_to_maskbit`; 32 rounds are enough. -/
def dropZeros : Nat → Nat → Nat
  | 0, mask => mask
  | k+1, mask => if 0 < mask ∧ mask % 2 = 0 then dropZeros k (mask / 2) else mask

def countOnes : Nat → Nat → Nat → Nat × Nat
  | 0, mask, maskbit => (mask,maskbit)
  | k+1, mask, maskbit =>
    if 0 < mask ∧ mask % 2 = 1 then countOnes k (mask / 2) (maskbit + 1) else (mask,maskbit)

def convertMaskaddrToMaskbit (mask : Nat) : Option Nat :=
  let r := countOnes 32 (dropZeros 32 mask) 0
  if r.1 ≠ 0 then none else some r.2

/-- `strtoul` to the base 10: the value, and the text behind what was read. -/
def strtoul (s : List Byte) : Nat × List Byte :=
  let t := s.dropWhile isspace
  let neg := t.head? == some 45
  let t := if t.head? == some 45 || t.head? == some 43 then t.tail else t
  let ds := t.takeWhile isdigit
  if ds = [] then (0,s)
  else
    let v := digitsValue ds
    (if 2^64 ≤ v then 2^64-1 else if neg then (2^64 - v) % 2^64 else v,t.dropWhile isdigit)

/-- The loop of `inet_pton` for IPv4, with the octets before the one that is being read, and its
value once a digit was seen. -/
def ptonLoop : List Byte → List Nat → Option Nat → Option (List Nat)
  | [], os, some x => if os.length + 1 = 4 then some (os ++ [x]) else none
  | [], _, none => none
  | c :: s, os, cur =>
    if isdigit c then
      match cur with
      | none => if 4 ≤ os.length then none else ptonLoop s os (some (c.toNat - 48))
      | some x =>
        if x = 0 then none
        else if 255 < x * 10 + (c.toNat - 48) then none
        else ptonLoop s os (some (x * 10 + (c.toNat - 48)))
    else if c = dot then
      match cur with
      | none => none
      | some x => if os.length + 1 = 4 then none else ptonLoop s (os ++ [x]) none
    else none

def ofOctets (os : List Nat) : BitVec 32 :=
  BitVec.ofNat 32 (fromBigEndian (os.map UInt8.ofNat))

def inetPton4 (s : List Byte) : Option (BitVec 32) := (ptonLoop s [] none).map ofOctets

def stripWild (buf : List Byte) : List Byte :=
  let len := buf.length
  if buf.getD (len - 1) 0 = star ∨ buf.getD (len - 1) 0 = dot then
    if 1 < len ∧ buf.getD (len - 2) 0 = dot then buf.take (len - 2) else buf.take (len - 1)
  else buf

/-- `atoi` of a text. -/
def atoiBytes (s : List Byte) : Int := toInt (toLong ((scanDecimal s).getD 0))

/-- The loop of `is_ipv4_addr_implementation`, with the octets so far. -/
def octetLoop : Nat → List Byte → List Nat → Option (List Nat)
  | 0, _, _ => none
  | fuel+1, buf, os =>
    if buf = [] then some os
    else
      let number := buf.takeWhile isdigit
      if number = [] then none
      else
        let x := atoiBytes number
        if x < 0 ∨ 255 < x then none
        else
          let os := os ++ [x.toNat]
          match buf.drop number.length with
          | [] => some os
          | c :: rest =>
            if c = dot then if 4 ≤ os.length then none else octetLoop fuel rest os else none

/-- The address, with 255 for the octets that are missing, and the mask. -/
def isIpv4AddrImplementation (inbuf : List Byte) (allowWildcard : Bool) :
    Option (BitVec 32 × BitVec 32) :=
  if inbuf.length < 1 ∨ 15 < inbuf.length then none
  else
    (octetLoop (inbuf.length + 1) (stripWild inbuf) []).bind fun os =>
      if !allowWildcard && os.length ≠ 4 then none
      else
        some (ofOctets (os ++ List.replicate (4 - os.length) 255),
          ofOctets (List.replicate os.length 255 ++ List.replicate (4 - os.length) 0))

section

variable (inetPton6 : List Byte → Option (List (BitVec 32)))

def fromIpString (s : List Byte) : Option Sockaddr :=
  match inetPton4 s with
  | some addr => some (.v4 addr)
  | none => (inetPton6 s).map .v6

/-- `from_net_string`, on an object that holds no network yet. -/
def fromNetString (net : List Byte) : Option Netaddr :=
  if slash ∈ net then
    (fromIpString inetPton6 (net.takeWhile (· ≠ slash))).bind fun base =>
      let second := (net.dropWhile (· ≠ slash)).tail
      let r := strtoul second
      if r.2 = [] then some ⟨base,r.1 % 2^32⟩
      else
        match base with
        | .v6 _ => some ⟨base,unset⟩
        | .v4 _ =>
          match fromIpString inetPton6 second with
          | some (.v4 mask) => (convertMaskaddrToMaskbit mask.toNat).map (⟨base,·⟩)
          | _ => none
  else
    (isIpv4AddrImplementation net true).bind fun r =>
      (convertMaskaddrToMaskbit r.2.toNat).map (⟨.v4 r.1,·⟩)

end

end Condor.Net
