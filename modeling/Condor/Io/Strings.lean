import Condor.Io.Integers

/-!
# Strings on a stream

In plain text a string stands on the stream with its terminator, and the null pointer as one byte;
under encryption both are preceded by their length.
-/

namespace Condor.Io.Stream

open Lib List Function Option

/-- A cipher that keeps lengths and can be undone: what becomes of a byte depends on a state that
both sides keep. -/
structure Cipher where
  State : Type
  encrypt : State → Byte → Byte × State
  decrypt : State → Byte → Byte × State
  decrypt_encrypt : ∀ s b, decrypt s (encrypt s b).1 = (b,(encrypt s b).2)

namespace Cipher

variable (c : Cipher)

def encryptAll : c.State → List Byte → List Byte × c.State
  | s, [] => ([],s)
  | s, b :: bs =>
    let r := encryptAll (c.encrypt s b).2 bs
    ((c.encrypt s b).1 :: r.1,r.2)

def decryptAll : c.State → List Byte → List Byte × c.State
  | s, [] => ([],s)
  | s, b :: bs =>
    let r := decryptAll (c.decrypt s b).2 bs
    ((c.decrypt s b).1 :: r.1,r.2)

theorem length_encryptAll (s : c.State) (bs : List Byte) :
    (c.encryptAll s bs).1.length = bs.length := by
  induction bs generalizing s with
  | nil => rfl
  | cons b bs ih => rw [encryptAll,length_cons,ih,length_cons]

private theorem decryptAll_encryptAll (s : c.State) (bs : List Byte) :
    c.decryptAll s (c.encryptAll s bs).1 = (bs,(c.encryptAll s bs).2) := by
  induction bs generalizing s with
  | nil => rfl
  | cons b bs ih =>
    rw [encryptAll,decryptAll,c.decrypt_encrypt]
    dsimp only
    rw [ih]

/-- `wrap`, where encryption is on. -/
def wrap (crypto : Option c.State) (data : List Byte) : List Byte × Option c.State :=
  match crypto with
  | none => (data,none)
  | some s => ((c.encryptAll s data).1,some (c.encryptAll s data).2)

def unwrap (crypto : Option c.State) (data : List Byte) : List Byte × Option c.State :=
  match crypto with
  | none => (data,none)
  | some s => ((c.decryptAll s data).1,some (c.decryptAll s data).2)

theorem length_wrap (crypto : Option c.State) (data : List Byte) :
    (c.wrap crypto data).1.length = data.length := by
  cases crypto with
  | none => rfl
  | some s => exact c.length_encryptAll s data

private theorem unwrap_wrap (crypto : Option c.State) (data : List Byte) :
    c.unwrap crypto (c.wrap crypto data).1 = (data,(c.wrap crypto data).2) := by
  cases crypto with
  | none => rfl
  | some s =>
    rw [wrap,unwrap,c.decryptAll_encryptAll]

end Cipher

variable {c : Cipher}

/-- `'\255'`, in octal: the null pointer. -/
def binNullChar : Byte := 173

structure Sender (c : Cipher) where
  code : Coding
  crypto : Option c.State
  sent : List Byte

namespace Sender

/-- `put_bytes` of the first `sz` bytes. -/
def putBytes (snd : Sender c) (data : List Byte) (sz : Int) : Int × Sender c :=
  if sz < 0 then (if snd.crypto.isSome then -1 else 0,snd)
  else
    let w := c.wrap snd.crypto (data.take sz.toNat)
    (sz,{ snd with sent := snd.sent ++ w.1,crypto := w.2 })

/-- `put(len)`. -/
def putLen (snd : Sender c) (len : Int) : Bool × Sender c :=
  match putInt snd.code (BitVec.ofInt 32 len) with
  | none => (false,snd)
  | some bs => (true,(snd.putBytes bs bs.length).2)

def dataOf : Option CString → List Byte
  | none => [binNullChar]
  | some s => bytes s ++ [0]

/-- `int len = strlen(s)+1`. -/
def lenOf : Option CString → Int
  | none => 1
  | some s => toInt (s.length + 1)

/-- `put(char const *)`. -/
def put (snd : Sender c) (v : Option CString) : Bool × Sender c :=
  match snd.code with
  | .internal | .external =>
    if snd.crypto.isSome then
      let r := snd.putLen (lenOf v)
      if r.1 then
        let p := r.2.putBytes (dataOf v) (lenOf v)
        (p.1 == lenOf v,p.2)
      else (false,r.2)
    else
      let p := snd.putBytes (dataOf v) (lenOf v)
      (p.1 == lenOf v,p.2)
  | .ascii => (false,snd)

end Sender

structure Receiver (c : Cipher) where
  code : Coding
  crypto : Option c.State
  incoming : List Byte
  /-- `decrypt_buf`; empty before it has been allocated. -/
  decryptBuf : List Byte

/-- `strncpy`: the characters of the text, then zeros, `n` bytes altogether. -/
def strncpy (mem : Nat → Byte) (text : List Byte) (n : Nat) : Nat → Byte :=
  fun i => if i < n then text.getD i 0 else mem i

namespace Receiver

def getBytes (rcv : Receiver c) (n : Nat) : Option (List Byte) × Receiver c :=
  if n ≤ rcv.incoming.length then
    let u := c.unwrap rcv.crypto (rcv.incoming.take n)
    (some u.1,{ rcv with incoming := rcv.incoming.drop n,crypto := u.2 })
  else (none,{ rcv with incoming := [],crypto := (c.unwrap rcv.crypto rcv.incoming).2 })

def getPtr (rcv : Receiver c) (delim : Byte) : Option (List Byte) × Receiver c :=
  if delim ∈ rcv.incoming then
    (some (rcv.incoming.takeWhile (· ≠ delim)),
      { rcv with incoming := (rcv.incoming.dropWhile (· ≠ delim)).drop 1 })
  else (none,rcv)

/-- `get(len)`, whose calls of `get_bytes` are taken together. -/
def getLen (rcv : Receiver c) : Option Int × Receiver c :=
  match rcv.getBytes (if rcv.code = .external then intSize else sizeofInt) with
  | (none,rcv) => (none,rcv)
  | (some bs,rcv) => ((Stream.getInt rcv.code bs).1.toOption.map BitVec.toInt,rcv)

/-- A pointer that a `get` sets: what it returns, and the null pointer or the text there. -/
structure Got where
  retval : Bool
  s : Option (List Byte)
  deriving DecidableEq

/-- The text in `decrypt_buf`; without a terminator it is not defined. -/
def fromBuffer (rcv : Receiver c) : Option (Got × Receiver c) :=
  if rcv.decryptBuf.head? = some binNullChar then some (⟨true,none⟩,rcv)
  else if 0 ∈ rcv.decryptBuf then some (⟨true,some (rcv.decryptBuf.takeWhile (· ≠ 0))⟩,rcv)
  else none

/-- `get_string_ptr` under encryption. -/
def getEncrypted (rcv : Receiver c) : Option (Got × Receiver c) :=
  match rcv.getLen with
  | (none,rcv) => some (⟨false,none⟩,rcv)
  | (some len,rcv) =>
    if len ≤ 0 then none
    else
      match rcv.getBytes len.toNat with
      | (none,rcv) => some (⟨false,none⟩,rcv)
      | (some bs,rcv) =>
        -- a longer buffer of an earlier call is used again
        fromBuffer { rcv with decryptBuf := bs ++ rcv.decryptBuf.drop bs.length }

/-- `get_string_ptr` without encryption. -/
def getPlain (rcv : Receiver c) : Got × Receiver c :=
  match rcv.incoming with
  | [] => (⟨false,none⟩,rcv)
  | b :: rest =>
    if b = binNullChar then (⟨true,none⟩,{ rcv with incoming := rest })
    else
      match rcv.getPtr 0 with
      | (none,rcv) => (⟨false,none⟩,rcv)
      | (some text,rcv) => (⟨true,some text⟩,rcv)

def getStringPtr (rcv : Receiver c) : Option (Got × Receiver c) :=
  match rcv.code with
  | .internal | .external =>
    if rcv.crypto.isSome then rcv.getEncrypted else some rcv.getPlain
  | .ascii => some (⟨false,none⟩,rcv)

/-- `get(char *&)`. -/
def getString (rcv : Receiver c) : Option (Got × Receiver c) :=
  rcv.getStringPtr.map fun r => (⟨r.1.retval,if r.1.retval then r.1.s else none⟩,r.2)

/-- The buffer of `l` bytes and the memory behind it, with the text that was got, or none. -/
def Got.store (g : Got) (l : Nat) (mem : Nat → Byte) : Bool × (Nat → Byte) :=
  let text := if g.retval then g.s.getD [] else []
  if toInt text.length + 1 > l then
    (false,update (strncpy mem text (l - 1)) l 0)
  else (g.retval,strncpy mem text l)

/-- `get(char *s, int l)`, with the memory from `s` on before and after it. -/
def getInto (rcv : Receiver c) (l : Nat) (mem : Nat → Byte) :
    Option ((Bool × (Nat → Byte)) × Receiver c) :=
  rcv.getStringPtr.map fun r => (r.1.store l mem,r.2)

end Receiver

/-- How a value is read: into memory of its own, or into a buffer of `l` bytes. -/
inductive Way where
  | ptr
  | into (l : Nat) (pos : 0 < l) (isInt : l < 2^31)

def text (v : Option CString) : List Byte := bytes (v.getD [])

def Reads (w : Way) (v : Option CString) (rcv rcv' : Receiver c) : Prop :=
  match w with
  | .ptr => rcv.getString = some (⟨true,v.map bytes⟩,rcv')
  | .into l _ _ =>
    ∀ mem, ∃ retval mem', rcv.getInto l mem = some ((retval,mem'),rcv') ∧
      (retval = true ↔ (text v).length + 1 ≤ l) ∧
      (∀ i, l ≤ i → mem' i = mem i) ∧
      ∃ k < l, k ≤ (text v).length ∧ (∀ i < k, mem' i = (text v).getD i 0) ∧ mem' k = 0 ∧
        ((text v).length + 1 ≤ l → k = (text v).length)

def InStep : Sender c → List Byte → List (Option CString × Way) → Prop
  | _, _, [] => True
  | snd, buf, (v,w) :: vs => ∃ snd' chunk buf',
      snd.put v = (true,snd') ∧ snd'.sent = snd.sent ++ chunk ∧
      (∀ rest, Reads w v ⟨snd.code,snd.crypto,chunk ++ rest,buf⟩
        ⟨snd'.code,snd'.crypto,rest,buf'⟩) ∧
      InStep snd' buf' vs

/-- The text does not begin with the byte of the null pointer, and its length is an `int`. -/
def Plain (v : Option CString) : Prop :=
  ∀ s, v = some s → (bytes s).head? ≠ some binNullChar ∧ s.length + 1 < 2^31

def Way.HoldsText (w : Way) (v : Option CString) : Prop :=
  match w with
  | .ptr => True
  | .into l _ _ => (text v).length + 1 ≤ l

def Carried (v : Option CString) (w : Way) : Prop := Plain v ∧ w.HoldsText v

variable {len : Int}

private theorem putInt_ofInt (h : -2^31 ≤ len ∧ len < 2^31) :
    putInt .external (BitVec.ofInt 32 len) = some (bigEndian 8 (word len)) := by
  have hvalue : (BitVec.ofInt 32 len).toInt = len := by
    rw [BitVec.toInt_ofInt]
    exact Int.bmod_eq_of_le (by omega) (by omega)
  have hput := put_external .int (BitVec.ofInt 32 len)
  rw [show IntegralType.value .int (BitVec.ofInt 32 len) = len from hvalue] at hput
  exact hput

namespace Sender

def append (snd : Sender c) (data : List Byte) : Sender c :=
  { snd with
    sent := snd.sent ++ (c.wrap snd.crypto data).1
    crypto := (c.wrap snd.crypto data).2 }

private theorem putBytes_of_nonneg (snd : Sender c) (data : List Byte) {sz : Int} (h : 0 ≤ sz) :
    snd.putBytes data sz = (sz,snd.append (data.take sz.toNat)) := by
  rw [putBytes,if_neg (by omega)]
  rfl

private theorem toInt_range (v : Int) : -2^31 ≤ toInt v ∧ toInt v < 2^31 := by
  have h1 := Int.le_bmod (x := v) (m := 2^32) (by decide)
  have h2 := Int.bmod_lt (x := v) (m := 2^32) (by decide)
  rw [toInt]
  omega

private theorem lenOf_range (v : Option CString) : -2^31 ≤ lenOf v ∧ lenOf v < 2^31 := by
  cases v with
  | none => decide
  | some s => exact toInt_range _

private theorem putLen_eq {snd : Sender c} (hcode : snd.code = .external) (v : Option CString) :
    snd.putLen (lenOf v) = (true,snd.append (bigEndian 8 (word (lenOf v)))) := by
  rw [putLen,hcode,putInt_ofInt (lenOf_range v)]
  dsimp only
  rw [putBytes_of_nonneg _ _ (Int.natCast_nonneg _),Int.toNat_natCast,take_length]

private theorem put_plain {snd : Sender c} (hcode : snd.code = .external) (hoff : snd.crypto = none)
    (v : Option CString) :
    snd.put v = ((snd.putBytes (dataOf v) (lenOf v)).1 == lenOf v,
      (snd.putBytes (dataOf v) (lenOf v)).2) := by
  rw [put,hcode]
  simp [hoff]

private theorem put_encrypted {snd : Sender c} (hcode : snd.code = .external)
    (hon : snd.crypto.isSome = true) (v : Option CString) :
    snd.put v =
      (((snd.append (bigEndian 8 (word (lenOf v)))).putBytes (dataOf v) (lenOf v)).1 == lenOf v,
        ((snd.append (bigEndian 8 (word (lenOf v)))).putBytes (dataOf v) (lenOf v)).2) := by
  rw [put,hcode]
  simp only [hon,if_true,putLen_eq hcode]

end Sender

namespace Receiver

private theorem getBytes_wrap (code : Coding) (crypto : Option c.State) (data rest buf : List Byte)
    {n : Nat}
    (hn : data.length = n) :
    (⟨code,crypto,(c.wrap crypto data).1 ++ rest,buf⟩ : Receiver c).getBytes n =
      (some data,⟨code,(c.wrap crypto data).2,rest,buf⟩) := by
  have hlen : (c.wrap crypto data).1.length = n := by rw [c.length_wrap,hn]
  rw [getBytes,if_pos (by simp [hlen]),take_left' hlen,drop_left' hlen,c.unwrap_wrap]

theorem getLen_append (crypto : Option c.State) (hlen : -2^31 ≤ len ∧ len < 2^31)
    (rest buf : List Byte) :
    (⟨.external,crypto,(c.wrap crypto (bigEndian 8 (word len))).1 ++ rest,buf⟩ : Receiver
    c).getLen =
      (some len,⟨.external,(c.wrap crypto (bigEndian 8 (word len))).2,rest,buf⟩) := by
  have hget := getInt_bigEndian (word_lt len) []
  have hok : receivedInt (word len) = .ok (BitVec.ofNat 32 (word len)) := by
    rw [receivedInt,if_pos]
    rw [word]
    omega
  have hvalue : (BitVec.ofNat 32 (word len)).toInt = len := by
    have h := value_int (word len)
    rw [show IntegralType.value .int (BitVec.ofNat 32 (word len)) =
      (BitVec.ofNat 32 (word len)).toInt from rfl] at h
    rw [h,word]
    split <;> omega
  rw [append_nil] at hget
  rw [getLen]
  dsimp only
  rw [if_pos rfl,getBytes_wrap (n := intSize) _ _ _ _ _ (length_bigEndian 8 _)]
  dsimp only
  rw [hget,hok]
  show (some (BitVec.toInt _),_) = _
  rw [hvalue]

theorem getEncrypted_append {crypto : Option c.State} {data : List Byte}
    (hlen : 0 < len ∧ len < 2^31) (hdata : data.length = len.toNat) (rest buf : List Byte) :
    (⟨.external,crypto,(c.wrap crypto (bigEndian 8 (word len))).1 ++
      ((c.wrap (c.wrap crypto (bigEndian 8 (word len))).2 data).1 ++ rest),buf⟩ :
      Receiver c).getEncrypted =
      fromBuffer ⟨.external,(c.wrap (c.wrap crypto (bigEndian 8 (word len))).2 data).2,rest,
        data ++ buf.drop data.length⟩ := by
  rw [getEncrypted,getLen_append crypto (by omega)]
  dsimp only
  rw [if_neg (by omega),getBytes_wrap _ _ _ _ _ hdata]

private theorem getEncrypted_nonpos {crypto : Option c.State} (hlen : -2^31 ≤ len ∧ len ≤ 0)
    (rest buf : List Byte) :
    (⟨.external,crypto,(c.wrap crypto (bigEndian 8 (word len))).1 ++ rest,buf⟩ :
      Receiver c).getEncrypted = none := by
  rw [getEncrypted,getLen_append crypto (by omega)]
  dsimp only
  rw [if_pos (by omega)]

private theorem fromBuffer_cases (rcv : Receiver c) :
    rcv.fromBuffer = none ∨ rcv.fromBuffer = some (⟨true,none⟩,rcv) ∨
      ∃ p, rcv.fromBuffer = some (⟨true,some p⟩,rcv) ∧ p.length < rcv.decryptBuf.length := by
  rw [fromBuffer]
  split
  · exact .inr (.inl rfl)
  · split
    · next hmem =>
      refine .inr (.inr ⟨_,rfl,?_⟩)
      have hle :=
        (List.takeWhile_prefix (l := rcv.decryptBuf) fun b : Byte => decide (b ≠ 0)).length_le
      refine lt_of_le_of_ne hle fun heq => ?_
      have hall := (List.takeWhile_prefix fun b : Byte => decide (b ≠ 0)).eq_of_length heq
      exact absurd (List.takeWhile_eq_self_iff.mp hall 0 hmem) (by decide)
    · exact .inl rfl

end Receiver

section Reading

variable {rcv rcv' rcv'' : Receiver c} {w : Way} {v : Option CString}

private theorem not_reads_of_undefined (h : rcv.getStringPtr = none) : ¬ Reads w v rcv rcv' := by
  intro hr
  cases w with
  | ptr =>
    rw [Reads,Receiver.getString,h] at hr
    simp at hr
  | into l pos isInt =>
    obtain ⟨retval,mem',hget,-⟩ := hr fun _ => 0
    rw [Receiver.getInto,h] at hget
    simp at hget

variable {p : Option (List Byte)}

theorem reads_ptr_iff (h : rcv.getStringPtr = some (⟨true,p⟩,rcv'')) :
    Reads .ptr v rcv rcv' ↔ p = v.map bytes ∧ rcv'' = rcv' := by
  rw [Reads,Receiver.getString,h]
  simp

theorem length_toInt {n : Nat} (h : n + 1 < 2^31) : toInt n = n :=
  Int.bmod_eq_of_le (by omega) (by omega)

private theorem store_found (p : Option (List Byte)) (l : Nat) (mem : Nat → Byte) :
    (⟨true,p⟩ : Receiver.Got).store l mem =
      if toInt (p.getD []).length + 1 > l then
        (false,update (strncpy mem (p.getD []) (l - 1)) l 0)
      else (true,strncpy mem (p.getD []) l) := by
  rw [Receiver.Got.store]
  simp only [if_true]

private theorem getInto_eq {g : Receiver.Got} (h : rcv.getStringPtr = some (g,rcv'')) (l : Nat)
    (mem : Nat → Byte) : rcv.getInto l mem = some (g.store l mem,rcv'') := by
  rw [Receiver.getInto,h,map_some]

private theorem fits_of_reads_into {l : Nat} {pos : 0 < l} {isInt : l < 2^31}
    (h : rcv.getStringPtr = some (⟨true,p⟩,rcv'')) (hr : Reads (.into l pos isInt) v rcv rcv') :
    (text v).length + 1 ≤ l ∧ ∀ i < (text v).length, (p.getD []).getD i 0 = (text v).getD i 0 := by
  obtain ⟨retval,mem',hget,hret,hbehind,k,hk,-,htext,-,hend⟩ := hr fun _ => 1
  rw [getInto_eq h] at hget
  have hstore := (Prod.mk.inj (some.inj hget)).1
  rw [store_found] at hstore
  split at hstore
  · obtain rfl := (Prod.mk.inj hstore).2
    have hl := hbehind l (le_refl l)
    rw [update_self] at hl
    exact absurd hl (by decide)
  · obtain ⟨rfl,rfl⟩ := Prod.mk.inj hstore
    have hfits := hret.mp rfl
    refine ⟨hfits,fun i hi => ?_⟩
    rw [← htext i (by rw [hend hfits]; exact hi),strncpy,if_pos (by omega)]

private theorem eq_of_reads {g : Receiver.Got} (h : rcv.getStringPtr = some (g,rcv''))
    (hr : Reads w v rcv rcv') : rcv'' = rcv' := by
  cases w with
  | ptr =>
    rw [Reads,Receiver.getString,h] at hr
    exact (Prod.mk.inj (some.inj hr)).2
  | into l pos isInt =>
    obtain ⟨retval,mem',hget,-⟩ := hr fun _ => 0
    rw [getInto_eq h] at hget
    exact (Prod.mk.inj (some.inj hget)).2

private theorem reads_of_found (h : rcv.getStringPtr = some (⟨true,v.map bytes⟩,rcv'))
    (hlen : (text v).length + 1 < 2^31) (hw : w.HoldsText v) : Reads w v rcv rcv' := by
  cases w with
  | ptr => exact (reads_ptr_iff h).mpr ⟨rfl,rfl⟩
  | into l pos isInt =>
    intro mem
    have hfound : (v.map bytes).getD [] = text v := by
      cases v with
      | none | some => rfl
    have hfits : (text v).length + 1 ≤ l := hw
    have hget := getInto_eq h l mem
    rw [store_found,hfound,length_toInt hlen,if_neg (by omega)] at hget
    refine ⟨true,_,hget,iff_of_true rfl hfits,?_,(text v).length,by omega,le_refl _,?_,?_,
      fun _ => rfl⟩
    · intro i hi
      rw [strncpy,if_neg (by omega)]
    · intro i hi
      rw [strncpy,if_pos (by omega)]
    · rw [strncpy,if_pos (by omega)]
      simp

private theorem not_reads_null {s : CString} (hne : (bytes s).head? = some binNullChar)
    (h : rcv.getStringPtr = some (⟨true,none⟩,rcv'')) : ¬ Reads w (some s) rcv rcv' := by
  intro hr
  cases w with
  | ptr => exact absurd ((reads_ptr_iff h).mp hr).1 (by simp)
  | into l pos isInt =>
    have htext : text (some s) = bytes s := rfl
    cases hs : bytes s with
    | nil => rw [hs] at hne; simp at hne
    | cons b rest =>
      have hfirst := (fits_of_reads_into h hr).2 0 (by rw [htext,hs]; simp)
      rw [hs] at hne
      obtain rfl := some.inj hne
      rw [htext,hs] at hfirst
      exact absurd (show (0 : Byte) = binNullChar from hfirst) (by decide)

private theorem not_reads_other {s : CString} (hp : p ≠ some (bytes s))
    (hlong : 2^31 ≤ s.length + 1) (h : rcv.getStringPtr = some (⟨true,p⟩,rcv'')) :
    ¬ Reads w (some s) rcv rcv' := by
  intro hr
  cases w with
  | ptr => exact hp ((reads_ptr_iff h).mp hr).1
  | into l pos isInt =>
    have hfits := (fits_of_reads_into h hr).1
    rw [show text (some s) = bytes s from rfl,length_bytes] at hfits
    omega

end Reading

private theorem getStringPtr_plain (rcv : Receiver c) (hcode : rcv.code = .external)
    (hoff : rcv.crypto = none) : rcv.getStringPtr = some rcv.getPlain := by
  rw [Receiver.getStringPtr,hcode]
  simp [hoff]

private theorem getStringPtr_encrypted (rcv : Receiver c) (hcode : rcv.code = .external)
    (hon : rcv.crypto.isSome = true) : rcv.getStringPtr = rcv.getEncrypted := by
  rw [Receiver.getStringPtr,hcode]
  simp [hon]

private theorem lenOf_eq {v : Option CString} (h : ∀ s, v = some s → s.length + 1 < 2^31) :
    Sender.lenOf v = (Sender.dataOf v).length := by
  cases v with
  | none => rfl
  | some s =>
    rw [Sender.lenOf,Sender.dataOf,length_append,length_bytes]
    exact Int.bmod_eq_of_le (by have := h s rfl; omega) (by have := h s rfl; omega)

theorem length_dataOf (v : Option CString) :
    (Sender.dataOf v).length = (text v).length + 1 := by
  cases v with
  | none => rfl
  | some s => exact length_append

theorem length_text {v : Option CString} (h : ∀ s, v = some s → s.length + 1 < 2^31) :
    (text v).length + 1 < 2^31 := by
  cases v with
  | none => decide
  | some s =>
    rw [show text (some s) = bytes s from rfl,length_bytes]
    exact h s rfl

private theorem getStringPtr_null (crypto : Option c.State) (hoff : crypto = none)
    (more buf : List Byte) :
    (⟨.external,crypto,binNullChar :: more,buf⟩ : Receiver c).getStringPtr =
      some (⟨true,none⟩,⟨.external,crypto,more,buf⟩) := by
  rw [getStringPtr_plain _ rfl hoff]
  rfl

private theorem getStringPtr_terminated (crypto : Option c.State) (hoff : crypto = none)
    {s : CString}
    (hs : (bytes s).head? ≠ some binNullChar) (rest buf : List Byte) :
    (⟨.external,crypto,bytes s ++ 0 :: rest,buf⟩ : Receiver c).getStringPtr =
      some (⟨true,some (bytes s)⟩,⟨.external,crypto,rest,buf⟩) := by
  have hsplit := takeWhile_terminated s rest
  have hptr : (⟨.external,crypto,bytes s ++ 0 :: rest,buf⟩ : Receiver c).getPtr 0 =
      (some (bytes s),⟨.external,crypto,rest,buf⟩) := by
    rw [Receiver.getPtr,if_pos (by simp),hsplit.1,hsplit.2]
    rfl
  rw [getStringPtr_plain _ rfl hoff,Receiver.getPlain]
  cases hb : bytes s with
  | nil =>
    rw [hb] at hptr
    dsimp only [nil_append] at hptr ⊢
    rw [if_neg (by decide),hptr]
  | cons b tail =>
    rw [hb] at hptr hs
    dsimp only [cons_append] at hptr ⊢
    rw [if_neg (by simpa using hs),hptr]

structure Leaves (snd snd' : Sender c) (v : Option CString) (chunk : List Byte) : Prop where
  put_eq : snd.put v = (true,snd')
  code_eq : snd'.code = .external
  sent_eq : snd'.sent = snd.sent ++ chunk
  mistaken : ∀ buf rest, (∃ s, v = some s ∧ (bytes s).head? = some binNullChar) → ∃ rcv,
    (⟨.external,snd.crypto,chunk ++ rest,buf⟩ : Receiver c).getStringPtr = some (⟨true,none⟩,rcv)
  found : ∀ buf, ∃ buf', (buf.length < 2^31 → buf'.length < 2^31) ∧ ∀ rest, Plain v →
    (⟨.external,snd.crypto,chunk ++ rest,buf⟩ : Receiver c).getStringPtr =
      some (⟨true,v.map bytes⟩,⟨.external,snd'.crypto,rest,buf'⟩)

theorem dataOf_append (s : CString) (rest : List Byte) :
    Sender.dataOf (some s) ++ rest = bytes s ++ 0 :: rest := by
  rw [Sender.dataOf,append_assoc]
  rfl

theorem head_append {s : CString} (hs : (bytes s).head? = some binNullChar)
    (rest : List Byte) :
    ∃ more, bytes s ++ 0 :: rest = binNullChar :: more := by
  cases hb : bytes s with
  | nil =>
    rw [hb] at hs
    simp at hs
  | cons b tail =>
    rw [hb] at hs
    obtain rfl := some.inj hs
    exact ⟨_,rfl⟩

variable {snd : Sender c}

private theorem put_short_plain (hcode : snd.code = .external) (hoff : snd.crypto = none)
    {v : Option CString} (hv : ∀ s, v = some s → s.length + 1 < 2^31) :
    Leaves snd (snd.append (Sender.dataOf v)) v (Sender.dataOf v) where
  put_eq := by
    have hlen := lenOf_eq hv
    rw [Sender.put_plain hcode hoff,Sender.putBytes_of_nonneg _ _ (by omega),hlen]
    simp
  code_eq := hcode
  sent_eq := by
    rw [Sender.append,hoff]
    rfl
  mistaken := by
    rintro buf rest ⟨s,rfl,hs⟩
    obtain ⟨more,hmore⟩ := head_append hs rest
    rw [dataOf_append,hmore]
    exact ⟨_,getStringPtr_null _ hoff more buf⟩
  found := by
    intro buf
    refine ⟨buf,id,fun rest hplain => ?_⟩
    have hcrypto : (snd.append (Sender.dataOf v)).crypto = snd.crypto := by
      rw [Sender.append,hoff]
      rfl
    rw [hcrypto]
    cases v with
    | none => exact getStringPtr_null _ hoff rest buf
    | some s =>
      rw [dataOf_append]
      exact getStringPtr_terminated _ hoff (hplain s rfl).1 rest buf

private theorem put_short_encrypted (hcode : snd.code = .external)
    (hon : snd.crypto.isSome = true) {v : Option CString}
    (hv : ∀ s, v = some s → s.length + 1 < 2^31) :
    Leaves snd ((snd.append (bigEndian 8 (word (Sender.lenOf v)))).append (Sender.dataOf v)) v
      ((c.wrap snd.crypto (bigEndian 8 (word (Sender.lenOf v)))).1 ++
        (c.wrap (c.wrap snd.crypto (bigEndian 8 (word (Sender.lenOf v)))).2
          (Sender.dataOf v)).1) := by
  have hlen := lenOf_eq hv
  have hshort := length_text hv
  have hdata := length_dataOf v
  have hread : ∀ rest buf, (⟨.external,snd.crypto,
      ((c.wrap snd.crypto (bigEndian 8 (word (Sender.lenOf v)))).1 ++
        (c.wrap (c.wrap snd.crypto (bigEndian 8 (word (Sender.lenOf v)))).2
          (Sender.dataOf v)).1) ++ rest,buf⟩ : Receiver c).getStringPtr =
      Receiver.fromBuffer ⟨.external,
        (c.wrap (c.wrap snd.crypto (bigEndian 8 (word (Sender.lenOf v)))).2 (Sender.dataOf v)).2,
        rest,Sender.dataOf v ++ buf.drop (Sender.dataOf v).length⟩ := by
    intro rest buf
    rw [getStringPtr_encrypted _ rfl hon,append_assoc]
    exact Receiver.getEncrypted_append (by omega) (by omega) rest buf
  constructor
  case put_eq =>
    rw [Sender.put_encrypted hcode hon,Sender.putBytes_of_nonneg _ _ (by omega),
      show (Sender.lenOf v).toNat = (Sender.dataOf v).length by omega,take_length]
    simp
  case code_eq => exact hcode
  case sent_eq => rw [Sender.append,Sender.append,append_assoc]
  case mistaken =>
    rintro buf rest ⟨s,rfl,hs⟩
    obtain ⟨more,hmore⟩ := head_append hs (buf.drop (Sender.dataOf (some s)).length)
    refine ⟨_,(hread rest buf).trans (if_pos ?_)⟩
    rw [dataOf_append,hmore]
    rfl
  case found =>
    intro buf
    refine ⟨Sender.dataOf v ++ buf.drop (Sender.dataOf v).length,?_,fun rest hplain => ?_⟩
    · intro hbuf
      rw [length_append,length_drop]
      omega
    · rw [hread rest buf]
      cases v with
      | none => exact if_pos rfl
      | some s =>
        have hhead := (hplain s rfl).1
        have hnot : (bytes s ++ 0 :: buf.drop (Sender.dataOf (some s)).length).head? ≠
            some binNullChar := by
          cases hb : bytes s with
          | nil => simp [binNullChar]
          | cons b tail =>
            rw [hb] at hhead
            exact hhead
        rw [Receiver.fromBuffer]
        dsimp only
        rw [dataOf_append,if_neg hnot,if_pos (by simp),(takeWhile_terminated s _).1]
        rfl

private theorem put_short (hcode : snd.code = .external) {v : Option CString}
    (hv : ∀ s, v = some s → s.length + 1 < 2^31) : ∃ snd' chunk, Leaves snd snd' v chunk := by
  by_cases hon : snd.crypto.isSome = true
  · exact ⟨_,_,put_short_encrypted hcode hon hv⟩
  · exact ⟨_,_,put_short_plain hcode (by simpa using hon) hv⟩

section Long

variable {s : CString} {sent chunk buf : List Byte} {crypto : Option c.State} {snd' : Sender c}
  {w : Way} {rcv' : List Byte → Receiver c}

private theorem lenOf_long (hs : 2^31 ≤ s.length + 1) : Sender.lenOf (some s) + 2 ≤ s.length := by
  have hmod : (s.length + 1 - toInt (s.length + 1)) % 2^32 = 0 := by
    rw [toInt,Int.bmod_def]
    split <;> omega
  have hrange := Sender.toInt_range (s.length + 1)
  rw [Sender.lenOf]
  omega

theorem length_dataOf_some (s : CString) :
    (Sender.dataOf (some s)).length = s.length + 1 := by
  rw [length_dataOf,show text (some s) = bytes s from rfl,length_bytes]

private theorem not_reads_long_plain (hs : 2^31 ≤ s.length + 1)
    (hput : (⟨.external,none,sent⟩ : Sender c).put (some s) = (true,snd'))
    (hsent : snd'.sent = sent ++ chunk) :
    ¬ ∀ rest, Reads w (some s) ⟨.external,none,chunk ++ rest,buf⟩ (rcv' rest) := by
  intro hreads
  have hlen := lenOf_long hs
  rw [Sender.put_plain rfl rfl] at hput
  obtain ⟨hret,rfl⟩ := Prod.mk.inj hput
  by_cases hneg : Sender.lenOf (some s) < 0
  · have hzero : (0 == Sender.lenOf (some s)) = true := by
      rw [Sender.putBytes,if_pos hneg] at hret
      exact hret
    rw [beq_iff_eq] at hzero
    omega
  · -- no terminator has been put; another string is read up to one that follows
    rw [Sender.putBytes_of_nonneg _ _ (by omega)] at hsent
    obtain rfl := append_cancel_left (hsent : sent ++ _ = sent ++ chunk)
    generalize hn : (Sender.lenOf (some s)).toNat = n at hreads
    have hchunk : (Sender.dataOf (some s)).take n ++ [1,0] =
        bytes (s.take n ++ [⟨1,by decide⟩]) ++ 0 :: [] := by
      rw [Sender.dataOf,take_append_of_le_length (by rw [length_bytes]; omega),bytes_append,
        bytes,bytes,map_take,append_assoc]
      rfl
    have hr := hreads [1,0]
    rw [show (c.wrap none ((Sender.dataOf (some s)).take n)).1 = (Sender.dataOf (some s)).take n
      from rfl,hchunk] at hr
    by_cases hhead : (bytes (s.take n ++ [⟨1,by decide⟩])).head? = some binNullChar
    · obtain ⟨more,hmore⟩ := head_append hhead []
      rw [hmore] at hr
      exact not_reads_other (by simp) hs (getStringPtr_null none rfl more buf) hr
    · refine not_reads_other (fun heq => ?_) hs (getStringPtr_terminated none rfl hhead [] buf) hr
      have hlength := congrArg List.length (some.inj heq)
      rw [length_bytes,length_bytes,length_append,length_take,length_singleton]
        at hlength
      omega

private theorem not_reads_long_encrypted (hs : 2^31 ≤ s.length + 1) (hon : crypto.isSome = true)
    (hbuf : buf.length < 2^31)
    (hput : (⟨.external,crypto,sent⟩ : Sender c).put (some s) = (true,snd'))
    (hsent : snd'.sent = sent ++ chunk) :
    ¬ ∀ rest, Reads w (some s) ⟨.external,crypto,chunk ++ rest,buf⟩ (rcv' rest) := by
  intro hreads
  have hr := hreads []
  have hrange := Sender.lenOf_range (some s)
  have hread := getStringPtr_encrypted (⟨.external,crypto,chunk ++ [],buf⟩ : Receiver c) rfl hon
  rw [Sender.put_encrypted rfl hon] at hput
  obtain rfl := (Prod.mk.inj hput).2
  by_cases hpos : 0 < Sender.lenOf (some s)
  · -- the text in the buffer is not as long as the string
    rw [Sender.putBytes_of_nonneg _ _ (by omega)] at hsent
    have hchunk : chunk = (c.wrap crypto (bigEndian 8 (word (Sender.lenOf (some s))))).1 ++
        (c.wrap (c.wrap crypto (bigEndian 8 (word (Sender.lenOf (some s))))).2
          ((Sender.dataOf (some s)).take (Sender.lenOf (some s)).toNat)).1 := by
      apply (append_right_inj sent).mp
      rw [← hsent,← append_assoc]
      rfl
    have htake : ((Sender.dataOf (some s)).take (Sender.lenOf (some s)).toNat).length =
        (Sender.lenOf (some s)).toNat := by
      rw [length_take,length_dataOf_some]
      omega
    rw [hchunk,append_assoc] at hread hr
    rw [Receiver.getEncrypted_append (by omega) htake] at hread
    rcases Receiver.fromBuffer_cases _ with hnone | hnull | ⟨p,hp,hlen⟩
    · exact not_reads_of_undefined (hread.trans hnone) hr
    · exact not_reads_other (by simp) hs (hread.trans hnull) hr
    · refine not_reads_other (fun heq => ?_) hs (hread.trans hp) hr
      rw [some.inj heq,length_bytes] at hlen
      dsimp only at hlen
      rw [length_append,length_drop,htake] at hlen
      omega
  · -- the length is read back, and nothing can be read with it
    have hmore : ∃ more, chunk =
        (c.wrap crypto (bigEndian 8 (word (Sender.lenOf (some s))))).1 ++ more := by
      rw [Sender.putBytes] at hsent
      split at hsent
      · refine ⟨[],?_⟩
        apply (append_right_inj sent).mp
        rw [← hsent,append_nil]
        rfl
      · refine ⟨(c.wrap (c.wrap crypto (bigEndian 8 (word (Sender.lenOf (some s))))).2
          ((Sender.dataOf (some s)).take (Sender.lenOf (some s)).toNat)).1,?_⟩
        apply (append_right_inj sent).mp
        rw [← hsent,← append_assoc]
        rfl
    obtain ⟨more,rfl⟩ := hmore
    rw [append_assoc] at hread hr
    rw [Receiver.getEncrypted_nonpos (by omega)] at hread
    exact not_reads_of_undefined hread hr

end Long

private theorem short_of_reads {snd snd' : Sender c} {v : Option CString} {w : Way}
    {chunk buf buf' : List Byte} (hcode : snd.code = .external) (hbuf : buf.length < 2^31)
    (hput : snd.put v = (true,snd')) (hsent : snd'.sent = snd.sent ++ chunk)
    (hreads : ∀ rest, Reads w v ⟨snd.code,snd.crypto,chunk ++ rest,buf⟩
      ⟨snd'.code,snd'.crypto,rest,buf'⟩) : ∀ s, v = some s → s.length + 1 < 2^31 := by
  rintro s rfl
  by_contra hlong
  obtain ⟨code,crypto,sent⟩ := snd
  obtain rfl : code = .external := hcode
  by_cases hon : crypto.isSome = true
  · exact not_reads_long_encrypted (by omega) hon hbuf hput hsent hreads
  · obtain rfl : crypto = none := by simpa using hon
    exact not_reads_long_plain (by omega) hput hsent hreads

private theorem carried_of_reads {snd snd' : Sender c} {v : Option CString} {w : Way}
    {chunk buf buf' : List Byte} (hleaves : Leaves snd snd' v chunk) (hcode : snd.code = .external)
    (hshort : ∀ s, v = some s → s.length + 1 < 2^31)
    (hreads : ∀ rest, Reads w v ⟨snd.code,snd.crypto,chunk ++ rest,buf⟩
      ⟨snd'.code,snd'.crypto,rest,buf'⟩) :
    Carried v w ∧ (buf.length < 2^31 → buf'.length < 2^31) := by
  have hr := hreads []
  rw [hcode] at hr
  have hplain : Plain v := by
    rintro s rfl
    refine ⟨fun hhead => ?_,hshort s rfl⟩
    obtain ⟨rcv,hnull⟩ := hleaves.mistaken buf [] ⟨s,rfl,hhead⟩
    exact not_reads_null hhead hnull hr
  obtain ⟨buf'',hlen,hfound⟩ := hleaves.found buf
  have hbuf : buf'' = buf' := congrArg Receiver.decryptBuf (eq_of_reads (hfound [] hplain) hr)
  refine ⟨⟨hplain,?_⟩,fun h => hbuf ▸ hlen h⟩
  cases w with
  | ptr => trivial
  | into l pos isInt => exact (fits_of_reads_into (hfound [] hplain) hr).1

private theorem inStep_iff_of_external {buf : List Byte} (hcode : snd.code = .external)
    (hbuf : buf.length < 2^31) (vs : List (Option CString × Way)) :
    InStep snd buf vs ↔ ∀ x ∈ vs, Carried x.1 x.2 := by
  induction vs generalizing snd buf with
  | nil => simp [InStep]
  | cons x vs ih =>
    obtain ⟨v,w⟩ := x
    rw [forall_mem_cons]
    constructor
    · rintro ⟨snd',chunk,buf',hput,hsent,hreads,hrest⟩
      have hshort := short_of_reads hcode hbuf hput hsent hreads
      obtain ⟨snd'',chunk',hleaves⟩ := put_short hcode hshort
      obtain rfl : snd'' = snd' := (Prod.mk.inj (hleaves.put_eq.symm.trans hput)).2
      obtain rfl : chunk' = chunk :=
        append_cancel_left (hleaves.sent_eq.symm.trans hsent)
      obtain ⟨hcarried,hlen⟩ := carried_of_reads hleaves hcode hshort hreads
      exact ⟨hcarried,(ih hleaves.code_eq (hlen hbuf)).mp hrest⟩
    · rintro ⟨⟨hplain,hway⟩,hrest⟩
      have hshort : ∀ s, v = some s → s.length + 1 < 2^31 := fun s hs => (hplain s hs).2
      obtain ⟨snd',chunk,hleaves⟩ := put_short hcode hshort
      obtain ⟨buf',hlen,hfound⟩ := hleaves.found buf
      refine ⟨snd',chunk,buf',hleaves.put_eq,hleaves.sent_eq,fun rest => ?_,
        (ih hleaves.code_eq (hlen hbuf)).mpr hrest⟩
      rw [hcode,hleaves.code_eq]
      exact reads_of_found (hfound rest hplain) (length_text hshort) hway

/-- For every cipher and either setting of the encryption, from a stream that nothing has been
sent on. -/
theorem inStep_iff (c : Cipher) (crypto : Option c.State) (vs : List (Option CString × Way)) :
    InStep ⟨.external,crypto,[]⟩ [] vs ↔ ∀ x ∈ vs, Carried x.1 x.2 :=
  inStep_iff_of_external rfl (by decide) vs

def identityCipher : Cipher where
  State := Unit
  encrypt _ b := (b,())
  decrypt _ b := (b,())
  decrypt_encrypt _ _ := rfl

def mistakenString : CString := [⟨173,by decide⟩,⟨97,by decide⟩]

theorem mistaken_for_null :
    ¬ ∀ (c : Cipher) (crypto : Option c.State) (vs : List (Option CString)),
      InStep ⟨.external,crypto,[]⟩ [] (vs.map fun v => (v,Way.ptr)) := by
  intro hall
  obtain ⟨snd',chunk,buf',hput,hsent,hreads,-⟩ :=
    hall identityCipher none [some mistakenString]
  obtain rfl := (Prod.mk.inj hput).2
  obtain rfl : [173,97,0] = chunk := hsent
  exact not_reads_null (s := mistakenString) rfl (getStringPtr_null none rfl [97,0] [])
    (hreads [])

end Condor.Io.Stream
