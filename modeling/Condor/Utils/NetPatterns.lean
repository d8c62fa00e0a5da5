import Condor.Utils.NetAddr

/-!
# What a network pattern denotes

Where `from_net_string` accepts a pattern, the network that it holds is compared with the one that
the text denotes.
-/

namespace Condor.Net

open Lib List Option

/-- The mask with the high `n` bits. -/
def prefixMask (n : Nat) : BitVec 32 := ~~~(BitVec.allOnes 32 >>> n)

def dotted : List (List Byte) → List Byte
  | [] => []
  | [s] => s
  | s :: t :: rest => s ++ dot :: dotted (t :: rest)

def IsQuad (s : List Byte) (addr : BitVec 32) : Prop :=
  ∃ os : List Nat, os.length = 4 ∧ (∀ o ∈ os, o < 256) ∧
    s = dotted (os.map fun o => bytes (decimal o)) ∧ addr = ofOctets os

def IsOctet (s : List Byte) : Prop :=
  s ≠ [] ∧ (∀ b ∈ s, isdigit b = true) ∧ digitsValue s ≤ 255

def octetsBase (runs : List (List Byte)) : BitVec 32 :=
  ofOctets (runs.map digitsValue ++ List.replicate (4 - runs.length) 255)

/-- The forms of a pattern, with the address and the number of bits they stand for. -/
inductive Denotes : List Byte → BitVec 32 → Nat → Prop
  | bits {base ds : List Byte} {addr : BitVec 32} (hbase : IsQuad base addr) (hne : ds ≠ [])
      (hds : ∀ b ∈ ds, isdigit b = true) (hle : digitsValue ds ≤ 32) :
      Denotes (base ++ slash :: ds) addr (digitsValue ds)
  | mask {base m : List Byte} {addr : BitVec 32} {n : Nat} (hbase : IsQuad base addr)
      (hn : n ≤ 32) (hm : IsQuad m (prefixMask n)) : Denotes (base ++ slash :: m) addr n
  | octets {runs : List (List Byte)} {body tail : List Byte} (hruns : ∀ r ∈ runs, IsOctet r)
      (hlen : runs.length ≤ 4)
      (hbody : body = dotted runs ∨ 0 < runs.length ∧ runs.length < 4 ∧ body = dotted runs ++ [dot])
      (htail : tail ∈ [[],[star],[dot],[dot,star],[dot,dot]]) (hne : body ++ tail ≠ []) :
      Denotes (body ++ tail) (octetsBase runs) (8 * runs.length)

theorem and_eq_and_iff (a b m : BitVec 32) :
    a &&& m = b &&& m ↔ ∀ i, m.getLsbD i = true → a.getLsbD i = b.getLsbD i := by
  constructor
  · intro h i hi
    have hbit := congrArg (fun v => v.getLsbD i) h
    simpa only [BitVec.getLsbD_and,hi,Bool.and_true] using hbit
  · intro h
    apply BitVec.eq_of_getLsbD_eq
    intro i _
    rw [BitVec.getLsbD_and,BitVec.getLsbD_and]
    cases hm : m.getLsbD i with
    | false => rw [Bool.and_false,Bool.and_false]
    | true => rw [h i hm]

private theorem wordMask_eq {n : Nat} (h : n ≤ 32) : wordMask n = prefixMask n := by
  rw [wordMask,prefixMask]
  split
  · next hle =>
    rw [show n = 32 by omega]
    decide
  · rw [Int.toNat_natCast]

private theorem matchAddr_v4 (base target : BitVec 32) (n : Nat) :
    (Netaddr.mk (.v4 base) n).matchAddr (.v4 target) =
      if n = unset then false else matchWords (toInt n) [base] [target] := rfl

theorem matchAddr_iff (base target : BitVec 32) {n : Nat} (h : n ≤ 32) :
    (Netaddr.mk (.v4 base) n).matchAddr (.v4 target) = true ↔
      ∀ i, (prefixMask n).getLsbD i = true → target.getLsbD i = base.getLsbD i := by
  have hset : n ≠ unset := by
    have hunset : unset = 4294967295 := rfl
    omega
  have hint : toInt n = n := Int.bmod_eq_of_le (by omega) (by omega)
  rw [← and_eq_and_iff,matchAddr_v4,if_neg hset,hint,matchWords]
  split
  · next hzero =>
    have hn : n = 0 := by omega
    have hmask : prefixMask 0 = 0 := by decide
    rw [hn,hmask]
    simp
  · rw [wordMask_eq h]
    split
    · next hne => exact ⟨fun hf => absurd hf Bool.false_ne_true,fun he => absurd he.symm hne⟩
    · next heq =>
      rw [ne_eq,not_not] at heq
      exact ⟨fun _ => heq.symm,fun _ => by rfl⟩

private theorem prefixMask_toNat {n : Nat} (h : n ≤ 32) :
    (prefixMask n).toNat = 2^32 - 2^(32 - n) := by
  revert n
  decide

private theorem dropZeros_spec (k mask : Nat) : ∃ j, mask = 2^j * dropZeros k mask := by
  induction k generalizing mask with
  | zero => exact ⟨0,(Nat.one_mul mask).symm⟩
  | succ k ih =>
    rw [dropZeros]
    split
    · next h =>
      obtain ⟨j,hj⟩ := ih (mask / 2)
      refine ⟨j + 1,?_⟩
      have hhalf : mask = 2 * (mask / 2) := by omega
      rw [Nat.pow_succ,Nat.mul_comm (2^j),Nat.mul_assoc,← hj]
      exact hhalf
    · exact ⟨0,(Nat.one_mul mask).symm⟩

private theorem countOnes_spec {k mask maskbit rest n : Nat}
    (h : countOnes k mask maskbit = (rest,n)) :
    ∃ i, n = maskbit + i ∧ mask = 2^i * rest + (2^i - 1) := by
  induction k generalizing mask maskbit with
  | zero =>
    rw [countOnes,Prod.mk.injEq] at h
    exact ⟨0,h.2.symm,by rw [h.1]; simp⟩
  | succ k ih =>
    rw [countOnes] at h
    split at h
    · next hodd =>
      obtain ⟨i,hn,hmask⟩ := ih h
      refine ⟨i + 1,by omega,?_⟩
      have hpos : 0 < 2^i := Nat.two_pow_pos i
      have hhalf : mask = 2 * (mask / 2) + 1 := by omega
      rw [Nat.pow_succ,Nat.mul_comm (2^i) 2,Nat.mul_assoc]
      omega
    · rw [Prod.mk.injEq] at h
      exact ⟨0,h.2.symm,by rw [h.1]; simp⟩

private theorem convertMaskaddrToMaskbit_block {mask n : Nat}
    (h : convertMaskaddrToMaskbit mask = some n) : ∃ j, mask = 2^j * (2^n - 1) := by
  rw [convertMaskaddrToMaskbit] at h
  cases hr : countOnes 32 (dropZeros 32 mask) 0 with
  | mk rest c =>
    rw [hr] at h
    dsimp only at h
    split at h
    · cases h
    · next hrest =>
      rw [some.injEq] at h
      obtain ⟨j,hj⟩ := dropZeros_spec 32 mask
      obtain ⟨i,hi,hmask⟩ := countOnes_spec hr
      rw [ne_eq,not_not] at hrest
      rw [hrest,Nat.mul_zero,Nat.zero_add] at hmask
      refine ⟨j,?_⟩
      rw [hmask] at hj
      rw [← h,hi,Nat.zero_add]
      exact hj

private theorem block_cases {m : BitVec 32} {j n : Nat} (h : m.toNat = 2^j * (2^n - 1)) :
    n ≤ 32 ∧ (m = prefixMask n ∨ 0 < n ∧ j + n < 32) := by
  have hlt := m.isLt
  by_cases hn : n = 0
  · refine ⟨by omega,.inl ?_⟩
    apply BitVec.eq_of_toNat_eq
    rw [h,hn,prefixMask_toNat (Nat.zero_le _)]
    simp
  · have hsum : j + n ≤ 32 := by
      have hones : 2^(n - 1) ≤ 2^n - 1 := by
        have hsucc : 2^n = 2 * 2^(n - 1) := by
          rw [← Nat.pow_succ',Nat.succ_eq_add_one,Nat.sub_add_cancel (Nat.pos_of_ne_zero hn)]
        have hpos : 0 < 2^(n - 1) := Nat.two_pow_pos _
        omega
      have hpow : 2^(j + (n - 1)) < 2^32 := by
        rw [Nat.pow_add]
        exact lt_of_le_of_lt (Nat.mul_le_mul_left _ hones) (h ▸ hlt)
      have hexp := (Nat.pow_lt_pow_iff_right (by decide : 1 < 2)).mp hpow
      omega
    refine ⟨by omega,?_⟩
    by_cases hhigh : j + n = 32
    · left
      apply BitVec.eq_of_toNat_eq
      rw [prefixMask_toNat (by omega),h,show 32 - n = j by omega,Nat.mul_sub,← Nat.pow_add,hhigh,
        Nat.mul_one]
    · exact .inr ⟨Nat.pos_of_ne_zero hn,by omega⟩

theorem dotted_cons (s : List Byte) {rest : List (List Byte)} (h : rest ≠ []) :
    dotted (s :: rest) = s ++ dot :: dotted rest := by
  cases rest with
  | nil => exact absurd rfl h
  | cons t rest => rfl

private theorem digit_toNat {c : Byte} (h : isdigit c = true) : 48 ≤ c.toNat ∧ c.toNat ≤ 57 := by
  simp only [isdigit,Bool.and_eq_true,decide_eq_true_eq,UInt8.le_iff_toNat_le] at h
  exact h

private theorem digitChar_of_digit {c : Byte} (h : isdigit c = true) :
    (digitChar (c.toNat - 48)).val = c := by
  obtain ⟨hlo,hhi⟩ := digit_toNat h
  apply UInt8.toNat_inj.mp
  show (UInt8.ofNat (48 + (c.toNat - 48) % 10)).toNat = c.toNat
  rw [UInt8.toNat_ofNat']
  omega

private theorem decimal_digit {c : Byte} (h : isdigit c = true) :
    bytes (decimal (c.toNat - 48)) = [c] := by
  have hchar := digitChar_of_digit h
  obtain ⟨hlo,hhi⟩ := digit_toNat h
  rw [decimal]
  split
  · next hzero =>
    rw [hzero] at hchar
    rw [bytes_cons,hchar,bytes_nil]
  · next hpos =>
    rw [Nat.digits_of_lt 10 _ hpos (by omega),reverse_singleton,map_singleton,bytes_cons,
      hchar,bytes_nil]

private theorem decimal_push {x : Nat} (hx : x ≠ 0) {c : Byte} (h : isdigit c = true) :
    bytes (decimal (x * 10 + (c.toNat - 48))) = bytes (decimal x) ++ [c] := by
  have hchar := digitChar_of_digit h
  obtain ⟨hlo,hhi⟩ := digit_toNat h
  have hdigits : Nat.digits 10 (x * 10 + (c.toNat - 48)) = (c.toNat - 48) :: Nat.digits 10 x := by
    rw [Nat.add_comm,Nat.mul_comm,Nat.digits_add 10 (by decide) _ _ (by omega) (.inr hx)]
  rw [decimal,decimal,if_neg hx,if_neg (by omega),hdigits,reverse_cons,map_append,
    bytes_append,map_singleton,bytes_cons,hchar,bytes_nil]

def readSoFar : Option Nat → List Byte
  | none => []
  | some x => bytes (decimal x)

variable {s : List Byte}

private theorem ptonLoop_quad {os r : List Nat} {cur : Option Nat}
    (hcur : ∀ x, cur = some x → x < 256) (h : ptonLoop s os cur = some r) :
    ∃ new, new ≠ [] ∧ r = os ++ new ∧ r.length = 4 ∧ (∀ o ∈ new, o < 256) ∧
      readSoFar cur ++ s = dotted (new.map fun o => bytes (decimal o)) := by
  induction s generalizing os cur with
  | nil =>
    cases cur with
    | none => cases h
    | some x =>
      rw [ptonLoop] at h
      split at h
      · next hlen =>
        rw [some.injEq] at h
        refine ⟨[x],cons_ne_nil _ _,h.symm,?_,?_,append_nil _⟩
        · rw [← h,length_append,length_singleton]
          exact hlen
        · intro o ho
          rw [List.mem_singleton.mp ho]
          exact hcur x rfl
      · cases h
  | cons c s ih =>
    unfold ptonLoop at h
    split at h
    · next hdigit =>
      obtain ⟨hlo,hhi⟩ := digit_toNat hdigit
      cases cur with
      | none =>
        dsimp only at h
        split at h
        · cases h
        · have hsmall : ∀ x, some (c.toNat - 48) = some x → x < 256 := by
            intro x hx
            rw [← some.inj hx]
            omega
          obtain ⟨new,hne,hr,hlen,hnew,htext⟩ := ih hsmall h
          refine ⟨new,hne,hr,hlen,hnew,?_⟩
          rw [← htext,readSoFar,readSoFar,decimal_digit hdigit]
          rfl
      | some x =>
        dsimp only at h
        split at h
        · cases h
        · next hx =>
          split at h
          · cases h
          · next hle =>
            have hsmall : ∀ y, some (x * 10 + (c.toNat - 48)) = some y → y < 256 := by
              intro y hy
              rw [← some.inj hy]
              omega
            obtain ⟨new,hne,hr,hlen,hnew,htext⟩ := ih hsmall h
            refine ⟨new,hne,hr,hlen,hnew,?_⟩
            rw [← htext,readSoFar,readSoFar,decimal_push hx hdigit,append_assoc]
            rfl
    · split at h
      · next hdot =>
        cases cur with
        | none => cases h
        | some x =>
          dsimp only at h
          split at h
          · cases h
          · have hnone : ∀ y, (none : Option Nat) = some y → y < 256 := by
              intro y hy
              cases hy
            obtain ⟨new,hne,hr,hlen,hnew,htext⟩ := ih hnone h
            refine ⟨x :: new,cons_ne_nil _ _,?_,hlen,?_,?_⟩
            · rw [hr,append_assoc,singleton_append]
            · intro o ho
              cases List.mem_cons.mp ho with
              | inl he =>
                rw [he]
                exact hcur x rfl
              | inr hm => exact hnew o hm
            · rw [map_cons,dotted_cons _ (mt List.map_eq_nil_iff.mp hne),← htext,hdot]
              rfl
      · cases h

private theorem inetPton4_quad {addr : BitVec 32} (h : inetPton4 s = some addr) :
    IsQuad s addr := by
  obtain ⟨os,hos,haddr⟩ := Option.map_eq_some_iff.mp h
  have hnone : ∀ y, (none : Option Nat) = some y → y < 256 := by
    intro y hy
    cases hy
  obtain ⟨new,-,hr,hlen,hnew,htext⟩ := ptonLoop_quad hnone hos
  rw [nil_append] at hr
  rw [hr] at hlen haddr
  exact ⟨new,hlen,hnew,htext,haddr.symm⟩

/-- What is behind the slash begins neither with white space nor with a sign, and is no number above
32 and no mask whose ones are not the highest bits. -/
structure PlainSecond (second : List Byte) : Prop where
  ne_nil : second ≠ []
  head : ∀ b, second.head? = some b → isspace b = false ∧ b ≠ 43 ∧ b ≠ 45
  bits : (∀ b ∈ second, isdigit b = true) → digitsValue second ≤ 32
  mask : ∀ m, IsQuad second m → ∀ j n, 0 < n → j + n < 32 → m.toNat ≠ 2^j * (2^n - 1)

private theorem strtoul_plain {second : List Byte} (h : PlainSecond second)
    (hall : (strtoul second).2 = []) :
    (∀ b ∈ second, isdigit b = true) ∧ (strtoul second).1 = digitsValue second := by
  obtain ⟨b,s,hs⟩ := exists_cons_of_ne_nil h.ne_nil
  obtain ⟨hspace,hplus,hminus⟩ := h.head b (by rw [hs]; rfl)
  have hskip : second.dropWhile isspace = second := by
    rw [hs,dropWhile_cons_of_neg]
    rw [hspace]
    exact Bool.false_ne_true
  have hneg : (second.head? == some 45) = false := by
    rw [hs]
    exact beq_eq_false_iff_ne.mpr fun he => hminus (some.inj he)
  have hpos : (second.head? == some 43) = false := by
    rw [hs]
    exact beq_eq_false_iff_ne.mpr fun he => hplus (some.inj he)
  have hread : strtoul second =
      if second.takeWhile isdigit = [] then (0,second)
      else (if 2^64 ≤ digitsValue (second.takeWhile isdigit) then 2^64-1
        else digitsValue (second.takeWhile isdigit),second.dropWhile isdigit) := by
    rw [strtoul,hskip]
    dsimp only
    rw [hneg,hpos]
    rfl
  rw [hread] at hall ⊢
  by_cases hnone : second.takeWhile isdigit = []
  · rw [if_pos hnone] at hall
    exact absurd hall h.ne_nil
  · rw [if_neg hnone] at hall ⊢
    have hdigits : ∀ b ∈ second, isdigit b = true := List.dropWhile_eq_nil_iff.mp hall
    have hsmall := h.bits hdigits
    rw [List.takeWhile_eq_self_iff.mpr hdigits]
    dsimp only
    rw [if_neg (by omega)]
    exact ⟨hdigits,rfl⟩

section

variable {inetPton6 : List Byte → Option (List (BitVec 32))}

private theorem fromIpString_v4 {addr : BitVec 32}
    (h : fromIpString inetPton6 s = some (.v4 addr)) : IsQuad s addr := by
  rw [fromIpString] at h
  split at h
  · next addr' hpton =>
    rw [some.injEq,Sockaddr.v4.injEq] at h
    rw [← h]
    exact inetPton4_quad hpton
  · obtain ⟨w,-,hw⟩ := Option.map_eq_some_iff.mp h
    exact Sockaddr.noConfusion hw

private theorem fromIpString_v6 {words : List (BitVec 32)}
    (h : fromIpString inetPton6 s = some (.v6 words)) : inetPton6 s = some words := by
  rw [fromIpString] at h
  split at h
  · exact Sockaddr.noConfusion (some.inj h)
  · obtain ⟨w,hw,he⟩ := Option.map_eq_some_iff.mp h
    rw [hw,Sockaddr.v6.inj he]

private theorem fromNetString_slash {base second : List Byte} {net : Netaddr}
    (hslash : slash ∉ base)
    (h6 : inetPton6 base = none) (hplain : PlainSecond second)
    (h : fromNetString inetPton6 (base ++ slash :: second) = some net) :
    ∃ addr n, n ≤ 32 ∧ net = ⟨.v4 addr,n⟩ ∧ Denotes (base ++ slash :: second) addr n := by
  have hskip : ∀ b ∈ base, decide (b ≠ slash) = true := by
    intro b hb
    exact decide_eq_true fun he => hslash (he ▸ hb)
  have htake : (base ++ slash :: second).takeWhile (· ≠ slash) = base := by
    rw [takeWhile_append_of_pos hskip,takeWhile_cons_of_neg (by simp),append_nil]
  have hdrop : ((base ++ slash :: second).dropWhile (· ≠ slash)).tail = second := by
    rw [dropWhile_append_of_pos hskip,dropWhile_cons_of_neg (by simp),tail_cons]
  rw [fromNetString,if_pos (by simp),htake] at h
  obtain ⟨b,hb,h⟩ := Option.bind_eq_some_iff.mp h
  rw [hdrop] at h
  cases b with
  | v6 words =>
    have hsome := fromIpString_v6 hb
    exact absurd (h6.symm.trans hsome) (some_ne_none words).symm
  | v4 addr =>
    have hquad := fromIpString_v4 hb
    dsimp only at h
    split at h
    · next hall =>
      obtain ⟨hdigits,hvalue⟩ := strtoul_plain hplain hall
      have hle := hplain.bits hdigits
      rw [hvalue,Nat.mod_eq_of_lt (by omega),some.injEq] at h
      exact ⟨addr,_,hle,h.symm,.bits hquad hplain.ne_nil hdigits hle⟩
    · split at h
      · next m hm =>
        obtain ⟨n,hn,hnet⟩ := Option.map_eq_some_iff.mp h
        obtain ⟨j,hj⟩ := convertMaskaddrToMaskbit_block hn
        have hmask := fromIpString_v4 hm
        obtain ⟨hle,hcases⟩ := block_cases hj
        cases hcases with
        | inl heq =>
          rw [heq] at hmask
          exact ⟨addr,n,hle,hnet.symm,.mask hquad hle hmask⟩
        | inr hlow => exact absurd hj (hplain.mask m hmask j n hlow.1 hlow.2)
      · cases h

end

/-- No run of digits has a value that `atoi` would wrap around. -/
def SmallNumbers (text : List Byte) : Prop :=
  ∀ ds, ds <:+: text → (∀ b ∈ ds, isdigit b = true) → digitsValue ds < 2^32

private theorem atoiBytes_octet {ds : List Byte} (hne : ds ≠ []) (hds : ∀ b ∈ ds, isdigit b = true)
    (hsmall : digitsValue ds < 2^32) (hpos : ¬(atoiBytes ds < 0 ∨ 255 < atoiBytes ds)) :
    IsOctet ds ∧ (atoiBytes ds).toNat = digitsValue ds := by
  have hscan : scanDecimal ds = some (digitsValue ds : Int) := by
    cases ds with
    | nil => exact absurd rfl hne
    | cons b s =>
      rw [scanDecimal_digit (hds b (mem_cons_self ..)),
        List.takeWhile_eq_self_iff.mpr hds]
  have hlong : toLong (digitsValue ds : Int) = digitsValue ds := by
    rw [toLong]
    omega
  have hatoi : atoiBytes ds = toInt (digitsValue ds) := by
    rw [atoiBytes,hscan,getD_some,hlong]
  rw [hatoi] at hpos ⊢
  have hvalue : toInt (digitsValue ds) = digitsValue ds := by
    by_cases hlt : digitsValue ds < 2^31
    · exact Int.bmod_eq_of_le (by omega) (by omega)
    · have hneg : toInt (digitsValue ds) < 0 := by
        rw [toInt,Int.bmod_def]
        split <;> omega
      exact absurd (.inl hneg) hpos
  rw [hvalue] at hpos ⊢
  exact ⟨⟨hne,hds,by omega⟩,Int.toNat_natCast _⟩

private theorem octetLoop_runs {fuel : Nat} {buf : List Byte} {os r : List Nat}
    (hos : os.length < 4)
    (hsmall : SmallNumbers buf) (h : octetLoop fuel buf os = some r) :
    ∃ runs, r = os ++ runs.map digitsValue ∧ (∀ s ∈ runs, IsOctet s) ∧ r.length ≤ 4 ∧
      (buf = dotted runs ∨ 0 < runs.length ∧ r.length < 4 ∧ buf = dotted runs ++ [dot]) := by
  induction fuel generalizing buf os with
  | zero => cases h
  | succ fuel ih =>
    rw [octetLoop] at h
    split at h
    · next hnil =>
      rw [some.injEq] at h
      refine ⟨[],?_,fun s hs => absurd hs not_mem_nil,?_,.inl hnil⟩
      · rw [map_nil,append_nil,h]
      · rw [← h]
        exact hos.le
    · dsimp only at h
      split at h
      · cases h
      · next hnumber =>
        split at h
        · cases h
        · next hx =>
          have hsplit : buf.takeWhile isdigit ++ buf.dropWhile isdigit = buf :=
            takeWhile_append_dropWhile
          have hdigits : ∀ b ∈ buf.takeWhile isdigit, isdigit b = true :=
            fun b hb => mem_takeWhile_imp hb
          have hvalue := hsmall _ (List.takeWhile_prefix isdigit).isInfix hdigits
          have hdrop : buf.drop (buf.takeWhile isdigit).length = buf.dropWhile isdigit := by
            have hleft := @drop_left _ (buf.takeWhile isdigit) (buf.dropWhile isdigit)
            rwa [hsplit] at hleft
          obtain ⟨hoctet,htoNat⟩ := atoiBytes_octet hnumber hdigits hvalue hx
          rw [hdrop,htoNat] at h
          generalize buf.takeWhile isdigit = number at *
          cases hrest : buf.dropWhile isdigit with
          | nil =>
            rw [hrest] at h hsplit
            rw [some.injEq] at h
            refine ⟨[number],h.symm,?_,?_,.inl ?_⟩
            · intro s hs
              rw [List.mem_singleton.mp hs]
              exact hoctet
            · rw [← h,length_append,length_singleton]
              omega
            · rw [← hsplit,append_nil]
              rfl
          | cons c rest =>
            rw [hrest] at h hsplit
            dsimp only at h
            split at h
            · next hdot =>
              split at h
              · cases h
              · next hlen =>
                have hinfix : rest <:+: buf := by
                  rw [← hsplit]
                  exact ⟨number ++ [c],[],by simp⟩
                obtain ⟨runs,hr,hruns,hle,htext⟩ := ih (Nat.not_le.mp hlen)
                  (fun ds hds => hsmall ds (hds.trans hinfix)) h
                refine ⟨number :: runs,?_,?_,hle,?_⟩
                · rw [hr,append_assoc]
                  rfl
                · intro s hs
                  cases List.mem_cons.mp hs with
                  | inl he => exact he ▸ hoctet
                  | inr hm => exact hruns s hm
                · rw [← hsplit,hdot]
                  cases runs with
                  | nil =>
                    cases htext with
                    | inl hnil =>
                      right
                      rw [hnil]
                      refine ⟨Nat.one_pos,?_,rfl⟩
                      rw [hr,map_nil,append_nil]
                      exact Nat.not_le.mp hlen
                    | inr hmore => exact absurd hmore.1 (Nat.lt_irrefl 0)
                  | cons run runs =>
                    rw [dotted_cons number (cons_ne_nil run runs)]
                    cases htext with
                    | inl hrest =>
                      left
                      rw [hrest]
                    | inr hmore =>
                      right
                      refine ⟨Nat.succ_pos _,hmore.2.1,?_⟩
                      rw [hmore.2.2,append_assoc,cons_append]
            · cases h

private theorem stripWild_concat (u : List Byte) (x : Byte) :
    stripWild (u ++ [x]) =
      if x = star ∨ x = dot then
        if 1 < u.length + 1 ∧ (u ++ [x]).getD (u.length - 1) 0 = dot then u.take (u.length - 1)
        else u
      else u ++ [x] := by
  have hlast : (u ++ [x]).getD ((u ++ [x]).length - 1) 0 = x := by
    rw [length_append,length_singleton,Nat.add_sub_cancel,
      getD_append_right _ _ _ _ (Nat.le_refl _),Nat.sub_self]
    rfl
  have htake : (u ++ [x]).take (u.length - 1) = u.take (u.length - 1) :=
    take_append_of_le_length (Nat.sub_le _ _)
  rw [stripWild,hlast,length_append,length_singleton,Nat.add_sub_cancel,
    show u.length + 1 - 2 = u.length - 1 by omega,htake,take_left]

private theorem stripWild_tail {buf : List Byte} (h : buf ≠ []) :
    ∃ tail ∈ [[],[star],[dot],[dot,star],[dot,dot]], buf = stripWild buf ++ tail := by
  obtain ⟨u,x,rfl⟩ := (eq_nil_or_concat' buf).resolve_left h
  rw [stripWild_concat]
  by_cases hx : x = star ∨ x = dot
  · rw [if_pos hx]
    by_cases hdot : 1 < u.length + 1 ∧ (u ++ [x]).getD (u.length - 1) 0 = dot
    · rw [if_pos hdot]
      have hne : u ≠ [] := by
        intro hnil
        rw [hnil] at hdot
        exact absurd hdot.1 (by decide)
      obtain ⟨v,y,rfl⟩ := (eq_nil_or_concat' u).resolve_left hne
      have hy : y = dot := by
        have hget := hdot.2
        rw [append_assoc,length_append,length_singleton,Nat.add_sub_cancel,
          getD_append_right _ _ _ _ (Nat.le_refl _),Nat.sub_self] at hget
        exact hget
      rw [length_append,length_singleton,Nat.add_sub_cancel,take_left,hy]
      cases hx with
      | inl hstar => exact ⟨[dot,star],by simp,by rw [hstar]; simp⟩
      | inr hdot' => exact ⟨[dot,dot],by simp,by rw [hdot']; simp⟩
    · rw [if_neg hdot]
      cases hx with
      | inl hstar => exact ⟨[star],by simp,by rw [hstar]⟩
      | inr hdot' => exact ⟨[dot],by simp,by rw [hdot']⟩
  · rw [if_neg hx]
    exact ⟨[],by simp,(append_nil _).symm⟩

private theorem octetsMask_maskbit : ∀ k ≤ 4, convertMaskaddrToMaskbit
    (ofOctets (List.replicate k 255 ++ List.replicate (4 - k) 0)).toNat = some (8 * k) := by
  decide

private theorem fromNetString_octets {inetPton6 : List Byte → Option (List (BitVec 32))}
    {text : List Byte} {net : Netaddr} (hslash : slash ∉ text) (hsmall : SmallNumbers text)
    (h : fromNetString inetPton6 text = some net) :
    ∃ addr n, n ≤ 32 ∧ net = ⟨.v4 addr,n⟩ ∧ Denotes text addr n := by
  rw [fromNetString,if_neg hslash] at h
  obtain ⟨r,hr,h⟩ := Option.bind_eq_some_iff.mp h
  obtain ⟨n,hn,hnet⟩ := Option.map_eq_some_iff.mp h
  rw [isIpv4AddrImplementation] at hr
  split at hr
  · cases hr
  · next hlen =>
    have hne : text ≠ [] := by
      intro hnil
      rw [hnil] at hlen
      exact hlen (.inl Nat.one_pos)
    obtain ⟨tail,htail,htext⟩ := stripWild_tail hne
    obtain ⟨os,hos,hmask⟩ := Option.bind_eq_some_iff.mp hr
    clear hr
    generalize stripWild text = body at *
    have hbody : SmallNumbers body := by
      intro ds hds
      apply hsmall ds
      rw [htext]
      exact hds.trans (prefix_append body tail).isInfix
    obtain ⟨runs,hruns,hoctets,hle,hcases⟩ := octetLoop_runs (by decide) hbody hos
    rw [nil_append] at hruns
    rw [hruns,length_map] at hle hcases
    rw [Bool.not_true,Bool.false_and,if_neg Bool.false_ne_true,some.injEq,hruns,
      length_map] at hmask
    rw [← hmask,octetsMask_maskbit runs.length hle,some.injEq] at hn
    refine ⟨octetsBase runs,8 * runs.length,by omega,?_,?_⟩
    · rw [← hnet,← hmask,← hn]
      rfl
    · rw [htext]
      apply Denotes.octets hoctets hle hcases htail
      rwa [← htext]

def Ipv4Pattern (inetPton6 : List Byte → Option (List (BitVec 32))) (text : List Byte) : Prop :=
  slash ∈ text → inetPton6 (text.takeWhile (· ≠ slash)) = none

structure PlainPattern (text : List Byte) : Prop where
  second : slash ∈ text → PlainSecond (text.dropWhile (· ≠ slash)).tail
  octets : slash ∉ text → SmallNumbers text

/-- A plain pattern that is accepted denotes a network, and just the addresses of this network
match. -/
theorem fromNetString_denotes {inetPton6 : List Byte → Option (List (BitVec 32))}
    {text : List Byte} {net : Netaddr} (h4 : Ipv4Pattern inetPton6 text)
    (hplain : PlainPattern text) (h : fromNetString inetPton6 text = some net) :
    ∃ addr n, Denotes text addr n ∧ net.base = .v4 addr ∧
      ∀ target, net.matchAddr (.v4 target) = true ↔
        ∀ i, (prefixMask n).getLsbD i = true → target.getLsbD i = addr.getLsbD i := by
  have haccepted : ∃ addr n, n ≤ 32 ∧ net = ⟨.v4 addr,n⟩ ∧ Denotes text addr n := by
    by_cases hslash : slash ∈ text
    · obtain ⟨base,second,htext,hbase⟩ := eq_append_cons_of_mem hslash
      have hskip : ∀ b ∈ base, decide (b ≠ slash) = true := by
        intro b hb
        exact decide_eq_true fun he => hbase (he ▸ hb)
      have h6 := h4 hslash
      have hsecond := hplain.second hslash
      rw [htext,takeWhile_append_of_pos hskip,takeWhile_cons_of_neg (by simp),
        append_nil] at h6
      rw [htext,dropWhile_append_of_pos hskip,dropWhile_cons_of_neg (by simp),
        tail_cons] at hsecond
      rw [htext] at h ⊢
      exact fromNetString_slash hbase h6 hsecond h
    · exact fromNetString_octets hslash (hplain.octets hslash) h
  obtain ⟨addr,n,hn,hnet,hdenotes⟩ := haccepted
  rw [hnet]
  exact ⟨addr,n,hdenotes,rfl,fun target => matchAddr_iff addr target hn⟩

private theorem digitsValue_lt {ds : List Byte} (h : ∀ b ∈ ds, isdigit b = true) :
    digitsValue ds < 10^ds.length := by
  have hfold : ∀ n, ds.foldl (fun n d => 10 * n + (d.toNat - 48)) n < (n + 1) * 10^ds.length := by
    induction ds with
    | nil =>
      intro n
      rw [foldl_nil,length_nil]
      omega
    | cons b ds ih =>
      intro n
      have hb := digit_toNat (h b (mem_cons_self ..))
      have hds := ih (fun c hc => h c (mem_cons_of_mem b hc)) (10 * n + (b.toNat - 48))
      rw [foldl_cons,length_cons,Nat.pow_succ]
      calc
        _ < (10 * n + (b.toNat - 48) + 1) * 10^ds.length := hds
        _ ≤ ((n + 1) * 10) * 10^ds.length := Nat.mul_le_mul_right _ (by omega)
        _ = (n + 1) * (10^ds.length * 10) := by rw [Nat.mul_assoc,Nat.mul_comm 10]
  have hzero := hfold 0
  rwa [Nat.zero_add,Nat.one_mul] at hzero

private theorem smallNumbers_of_length {text : List Byte}
    (h : text.length ≤ 9) : SmallNumbers text := by
  intro ds hds hdigits
  have hlt := digitsValue_lt hdigits
  have hle : 10^ds.length ≤ 10^9 := Nat.pow_le_pow_right (by decide) (hds.length_le.trans h)
  omega

/-- A parser that knows no IPv6 address in place of the library's. -/
theorem fromNetString_denotes_class_b :
    ∃ addr n, Denotes (bytes (cstr "128.105.*")) addr n ∧
      Sockaddr.v4 (ofOctets [128,105,255,255]) = .v4 addr ∧
      ∀ target, (Netaddr.mk (.v4 (ofOctets [128,105,255,255])) 16).matchAddr (.v4 target) = true ↔
        ∀ i, (prefixMask n).getLsbD i = true → target.getLsbD i = addr.getLsbD i := by
  have hslash : slash ∉ bytes (cstr "128.105.*") := by decide
  have hlen : (bytes (cstr "128.105.*")).length ≤ 9 := by decide
  have hnet : fromNetString (fun _ => none) (bytes (cstr "128.105.*")) =
      some ⟨.v4 (ofOctets [128,105,255,255]),16⟩ := by decide
  have h4 : Ipv4Pattern (fun _ => none) (bytes (cstr "128.105.*")) := fun h => absurd h hslash
  exact fromNetString_denotes h4
    ⟨fun h => absurd h hslash,fun _ => smallNumbers_of_length hlen⟩ hnet

/-- The three forms with one to four octets, and nothing, `*` or `.*` behind them. -/
inductive Listed : List Byte → Prop
  | bits {base ds : List Byte} {addr : BitVec 32} (hbase : IsQuad base addr) (hne : ds ≠ [])
      (hds : ∀ b ∈ ds, isdigit b = true) (hle : digitsValue ds ≤ 32) : Listed (base ++ slash :: ds)
  | mask {base m : List Byte} {addr : BitVec 32} {n : Nat} (hbase : IsQuad base addr)
      (hn : n ≤ 32) (hm : IsQuad m (prefixMask n)) : Listed (base ++ slash :: m)
  | octets {runs : List (List Byte)} {tail : List Byte} (hne : runs ≠ [])
      (hruns : ∀ r ∈ runs, IsOctet r) (hlen : runs.length ≤ 4)
      (htail : tail ∈ [[],[star],[dot,star]]) : Listed (dotted runs ++ tail)

/-- The shortest pattern has no octet. -/
theorem lone_star_accepted :
    fromNetString (fun _ => none) [star] = some ⟨.v4 (ofOctets [255,255,255,255]),0⟩ ∧
      ¬Listed [star] := by
  refine ⟨by decide,?_⟩
  have hnone : ∀ text, Listed text → text ≠ [star] := by
    intro text h he
    cases h with
    | bits | mask =>
      have hm : slash ∈ [star] := by
        rw [← he]
        exact mem_append_right _ (mem_cons_self ..)
      exact absurd hm (by decide)
    | @octets runs tail hne hruns hlen htail =>
      obtain ⟨r,rs,rfl⟩ := exists_cons_of_ne_nil hne
      obtain ⟨hr,hdigits,-⟩ := hruns r (mem_cons_self ..)
      obtain ⟨b,r',rfl⟩ := exists_cons_of_ne_nil hr
      have hfirst : (dotted ((b :: r') :: rs) ++ tail).head? = some b := by
        cases rs with
        | nil | cons => rfl
      have hb := hdigits b (mem_cons_self ..)
      rw [he] at hfirst
      rw [← some.inj hfirst] at hb
      exact absurd hb (by decide)
  exact fun h => hnone _ h rfl

end Condor.Net
