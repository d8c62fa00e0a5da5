import Mathlib.Data.List.TakeWhile
import Mathlib.Data.Nat.Digits.Lemmas
import Condor.Lib.KeyedList

/-!
# Bytes, C strings and decimal numerals

Files are lists of bytes. A C string is a list of non-NUL bytes, so no value of the type can hold
the terminator.
-/

namespace Condor

open List

abbrev Byte := UInt8

abbrev CChar := {b : Byte // b ≠ 0}

abbrev CString := List CChar

/-- The bytes that `fwrite` puts out for a C string. -/
def bytes (s : CString) : List Byte := s.map Subtype.val

def cstr (s : String) : CString :=
  s.toList.filterMap fun c =>
    if h : UInt8.ofNat c.toNat = 0 then none else some ⟨UInt8.ofNat c.toNat,h⟩

def newline : Byte := 10

def blank : Byte := 32

/-- `isspace` in the "C" locale: blank, tab, newline, vertical tab, form feed, return. -/
def isspace (b : Byte) : Bool := b == 32 || (9 ≤ b && b ≤ 13)

def isdigit (b : Byte) : Bool := 48 ≤ b && b ≤ 57

def tolower (b : Byte) : Byte := if 65 ≤ b && b ≤ 90 then b + 32 else b

/-- `strcasecmp(s, t) == 0`. -/
def strcaseeq (s t : CString) : Bool := (bytes s).map tolower == (bytes t).map tolower

@[simp] theorem bytes_nil : bytes [] = [] := rfl

@[simp] theorem bytes_cons (c : CChar) (s : CString) :
    bytes (c :: s) = c.val :: bytes s := rfl

@[simp] theorem bytes_append (s t : CString) :
    bytes (s ++ t) = bytes s ++ bytes t := map_append

theorem ne_zero_of_mem_bytes {s : CString} {b : Byte} (h : b ∈ bytes s) : b ≠ 0 := by
  obtain ⟨ch,-,rfl⟩ := List.mem_map.mp h
  exact ch.2

theorem takeWhile_terminated (s : CString) (more : List Byte) :
    (bytes s ++ 0 :: more).takeWhile (· ≠ 0) = bytes s ∧
      (bytes s ++ 0 :: more).dropWhile (· ≠ 0) = 0 :: more := by
  have h : ∀ b ∈ bytes s, (decide (b ≠ 0)) = true := by
    intro b hb
    exact decide_eq_true (ne_zero_of_mem_bytes hb)
  constructor
  · rw [takeWhile_append_of_pos h]
    simp
  · rw [dropWhile_append_of_pos h]
    simp

theorem length_bytes (s : CString) : (bytes s).length = s.length := length_map _

theorem strcaseeq_iff (s t : CString) :
    strcaseeq s t = true ↔ (bytes s).map tolower = (bytes t).map tolower := beq_iff_eq

@[simp] theorem strcaseeq_refl (s : CString) : strcaseeq s s = true := (strcaseeq_iff s s).mpr rfl

theorem strcaseeq_comm (s t : CString) : strcaseeq s t = strcaseeq t s := by
  rw [Bool.eq_iff_iff,strcaseeq_iff,strcaseeq_iff]
  exact eq_comm

theorem strcaseeq_trans {s t u : CString} (h : strcaseeq s t = true) :
    strcaseeq t u = strcaseeq s u := by
  rw [Bool.eq_iff_iff,strcaseeq_iff,strcaseeq_iff,(strcaseeq_iff s t).mp h]

theorem strcaseeq_isEquiv : Lib.KeyedList.IsEquiv strcaseeq where
  refl := strcaseeq_refl
  comm := strcaseeq_comm
  trans _ _ _ h := strcaseeq_trans h

/-- A word as `readword` delimits it: not empty and without white space. -/
def IsWord (s : CString) : Prop := s ≠ [] ∧ ∀ c ∈ s, isspace c.val = false

def NoNewline (s : CString) : Prop := ∀ c ∈ s, c.val ≠ newline

instance (s : CString) : Decidable (IsWord s) :=
  @instDecidableAnd _ _ (inferInstanceAs (Decidable (s ≠ [])))
    (List.decidableBAll (fun c : CChar => isspace c.val = false) s)

instance (s : CString) : Decidable (NoNewline s) :=
  List.decidableBAll (fun c : CChar => c.val ≠ newline) s

theorem IsWord.noNewline {s : CString} (h : IsWord s) : NoNewline s := by
  intro c hc he
  have hs := h.2 c hc
  rw [he] at hs
  exact absurd hs (by decide)

private theorem isspace_tolower (b : Byte) : isspace (tolower b) = isspace b := by
  rw [tolower]
  split
  · next h =>
    simp only [Bool.and_eq_true,decide_eq_true_eq,UInt8.le_iff_toNat_le] at h
    have h1 : (65 : UInt8).toNat = 65 := rfl
    have h2 : (90 : UInt8).toNat = 90 := rfl
    have hadd : (b + 32).toNat = b.toNat + 32 := by
      rw [UInt8.toNat_add]
      have h3 : (32 : UInt8).toNat = 32 := rfl
      omega
    rw [Bool.eq_iff_iff]
    simp only [isspace,Bool.or_eq_true,beq_iff_eq,Bool.and_eq_true,decide_eq_true_eq,
      UInt8.le_iff_toNat_le,← UInt8.toNat_inj,hadd]
    have h3 : (32 : UInt8).toNat = 32 := rfl
    have h4 : (9 : UInt8).toNat = 9 := rfl
    have h5 : (13 : UInt8).toNat = 13 := rfl
    omega
  · rfl

private theorem isWord_iff_bytes (s : CString) :
    IsWord s ↔ (bytes s).map tolower ≠ [] ∧ ∀ b ∈ (bytes s).map tolower, isspace b = false := by
  rw [IsWord,forall_mem_map,bytes,forall_mem_map]
  simp only [isspace_tolower,ne_eq,map_eq_nil_iff]

theorem IsWord.of_strcaseeq {s t : CString} (h : strcaseeq s t = true) (hs : IsWord s) :
    IsWord t := by
  rw [isWord_iff_bytes] at hs ⊢
  rw [← (strcaseeq_iff s t).mp h]
  exact hs

/-- `fgets`: at most `n` bytes, through the first newline. -/
def fgets : Nat → List Byte → List Byte × List Byte
  | 0, s => ([],s)
  | _+1, [] => ([],[])
  | n+1, b :: rest =>
    if b = newline then ([b],rest) else (b :: (fgets n rest).1,(fgets n rest).2)

/-- `%s`: white space is skipped, then a word is taken. -/
def scanWord (s : List Byte) : List Byte × List Byte :=
  let s := s.dropWhile isspace
  (s.takeWhile fun b => !isspace b,s.dropWhile fun b => !isspace b)

def toCString (s : List Byte) : CString :=
  s.filterMap fun b => if h : b = 0 then none else some ⟨b,h⟩

theorem toCString_bytes (s : CString) : toCString (bytes s) = s := by
  induction s with
  | nil => rfl
  | cons c s ih =>
    rw [toCString] at ih
    simp [toCString,c.2,ih]

theorem fgets_line {n : Nat} {s : List Byte} (hs : ∀ b ∈ s, b ≠ newline) (hn : s.length < n)
    (rest : List Byte) : fgets n (s ++ newline :: rest) = (s ++ [newline],rest) := by
  induction s generalizing n with
  | nil =>
    cases n with
    | zero => exact absurd hn (Nat.not_lt_zero _)
    | succ n => rw [nil_append,fgets,if_pos rfl,nil_append]
  | cons b s ih =>
    cases n with
    | zero => exact absurd hn (Nat.not_lt_zero _)
    | succ n =>
      have hb := hs b mem_cons_self
      rw [cons_append,fgets,if_neg hb,ih (fun c hc => hs c (mem_cons_of_mem _ hc))
        (Nat.lt_of_succ_lt_succ hn)]
      rfl

theorem scanWord_word {w : List Byte} (hne : w ≠ []) (hw : ∀ b ∈ w, isspace b = false) {c : Byte}
    (hc : isspace c = true) (rest : List Byte) : scanWord (w ++ c :: rest) = (w,c :: rest) := by
  have htake : ∀ w : List Byte, (∀ b ∈ w, isspace b = false) →
      (w ++ c :: rest).takeWhile (fun b => !isspace b) = w ∧
        (w ++ c :: rest).dropWhile (fun b => !isspace b) = c :: rest := by
    intro w hw
    induction w with
    | nil => simp [hc]
    | cons b w ih =>
      have hb := hw b mem_cons_self
      simpa [hb] using ih fun b' hb' => hw b' (mem_cons_of_mem _ hb')
  have hdrop : (w ++ c :: rest).dropWhile isspace = w ++ c :: rest := by
    cases w with
    | nil => exact absurd rfl hne
    | cons b w => simp [hw b mem_cons_self]
  simp only [scanWord,hdrop,htake w hw]

theorem scanWord_space {c : Byte} (hc : isspace c = true) (s : List Byte) :
    scanWord (c :: s) = scanWord s := by
  simp [scanWord,hc]

private theorem digit_ne_zero (d : Nat) : UInt8.ofNat (48 + d % 10) ≠ 0 := by
  intro h
  have hv := congrArg UInt8.toNat h
  simp only [UInt8.toNat_ofNat',UInt8.toNat_zero] at hv
  omega

def digitChar (d : Nat) : CChar := ⟨UInt8.ofNat (48 + d % 10),digit_ne_zero d⟩

def dot : CChar := ⟨46,by decide⟩

def minus : CChar := ⟨45,by decide⟩

/-- What `%d` and `%lu` print for a natural number. -/
def decimal (n : Nat) : CString :=
  if n = 0 then [digitChar 0] else (Nat.digits 10 n).reverse.map digitChar

/-- What `%d` prints. -/
def decimalInt (n : Int) : CString :=
  if n < 0 then minus :: decimal n.natAbs else decimal n.natAbs

def digitsValue (ds : List Byte) : Nat := ds.foldl (fun n d => 10 * n + (d.toNat - 48)) 0

/-- The numeral at the front of a text as `strtol` reads it: white space, a sign, digits. -/
def scanDecimal (s : List Byte) : Option Int :=
  let s := s.dropWhile isspace
  let neg := s.head? == some 45
  let s := if s.head? == some 45 || s.head? == some 43 then s.tail else s
  let ds := s.takeWhile isdigit
  if ds = [] then none
  else some (if neg then -(digitsValue ds : Int) else (digitsValue ds : Int))

/-- `strtol` saturates at the ends of `long`. -/
def toLong (v : Int) : Int := max (-(2^63)) (min (2^63-1) v)

/-- The conversion of a `long` to `int`. -/
def toInt (v : Int) : Int := Int.bmod v (2^32)

def atol (s : CString) : Int := toLong ((scanDecimal (bytes s)).getD 0)

def atoi (s : CString) : Int := toInt (atol s)

/-- `sscanf(line, "%d ", &op)`: the converted value, or none when nothing matched. -/
def sscanfInt (line : List Byte) : Option Int :=
  (scanDecimal (line.takeWhile (· != 0))).map fun v => toInt (toLong v)

/-- `sscanf(buf, "%lu", &v)`: it saturates on overflow, and a minus sign negates in the unsigned
type. -/
def sscanfUnsignedLong (s : CString) (old : UInt64) : UInt64 :=
  match scanDecimal (bytes s) with
  | none => old
  | some v => if v.natAbs < 2^64 then UInt64.ofNat (v % 2^64).toNat else UInt64.ofNat (2^64-1)

private theorem digitChar_toNat (d : Nat) : (digitChar d).val.toNat = 48 + d % 10 := by
  simp only [digitChar,UInt8.toNat_ofNat']
  omega

private theorem digitChar_isdigit (d : Nat) : isdigit (digitChar d).val = true := by
  have h := digitChar_toNat d
  simp only [isdigit,Bool.and_eq_true,decide_eq_true_eq,UInt8.le_iff_toNat_le,h]
  exact ⟨by simp,by change _ ≤ 57; omega⟩

theorem isspace_of_isdigit {b : Byte} (h : isdigit b = true) : isspace b = false := by
  simp only [isdigit,Bool.and_eq_true,decide_eq_true_eq,UInt8.le_iff_toNat_le] at h
  have h48 : (48 : Byte).toNat = 48 := rfl
  have h13 : (13 : Byte).toNat = 13 := rfl
  have hne : b ≠ 32 := by
    intro he
    rw [he] at h
    exact absurd h.1 (by decide)
  simp only [isspace,Bool.or_eq_false_iff,beq_eq_false_iff_ne,Bool.and_eq_false_iff,
    decide_eq_false_iff_not,UInt8.le_iff_toNat_le]
  exact ⟨hne,Or.inr (by omega)⟩

theorem decimal_ne_nil (n : Nat) : decimal n ≠ [] := by
  unfold decimal
  split
  · simp
  · next h => simpa using Nat.digits_ne_nil_iff_ne_zero.mpr h

theorem decimal_isdigit (n : Nat) : ∀ c ∈ decimal n, isdigit c.val = true := by
  intro c hc
  unfold decimal at hc
  split at hc
  · simp only [mem_singleton] at hc
    rw [hc]
    exact digitChar_isdigit 0
  · obtain ⟨d,_,rfl⟩ := List.mem_map.mp hc
    exact digitChar_isdigit d

private theorem decimal_ne_dot (n : Nat) : ∀ c ∈ decimal n, c ≠ dot := by
  intro c hc he
  have hd := decimal_isdigit n c hc
  rw [he] at hd
  exact absurd hd (by decide)

theorem decimalInt_ne_dot (n : Int) : ∀ c ∈ decimalInt n, c ≠ dot := by
  intro c hc
  rw [decimalInt] at hc
  split at hc
  · rcases List.mem_cons.mp hc with rfl | hc
    · decide
    · exact decimal_ne_dot _ c hc
  · exact decimal_ne_dot _ c hc

theorem decimal_isWord (n : Nat) : IsWord (decimal n) :=
  ⟨decimal_ne_nil n,fun c hc => isspace_of_isdigit (decimal_isdigit n c hc)⟩

private theorem digitsValue_decimal (n : Nat) : digitsValue (bytes (decimal n)) = n := by
  unfold decimal
  split
  · next h => rw [h]; decide
  · next h =>
    have hlt : ∀ d ∈ Nat.digits 10 n, d < 10 := fun d hd => Nat.digits_lt_base (by decide) hd
    have hv := Nat.ofDigits_digits 10 n
    rw [Nat.ofDigits_eq_foldr] at hv
    rw [digitsValue,bytes,map_map,foldl_map,foldl_reverse]
    refine Eq.trans ?_ hv
    generalize Nat.digits 10 n = ds at hlt
    clear hv h
    induction ds with
    | nil => rfl
    | cons d ds ih =>
      have hd := hlt d (by simp)
      rw [foldr_cons,foldr_cons,ih (fun e he => hlt e (by simp [he]))]
      simp only [Function.comp_apply,digitChar_toNat,Nat.cast_id]
      omega

theorem decimal_length {n k : Nat} (hk : k ≠ 0) (hn : n < 10^k) : (decimal n).length ≤ k := by
  unfold decimal
  split
  · simpa using Nat.one_le_iff_ne_zero.mpr hk
  · rw [length_map,length_reverse]
    exact (Nat.digits_length_le_iff (by decide) n).mpr hn

private theorem head_decimal (n : Nat) : ∃ c rest, decimal n = c :: rest ∧ isdigit c.val =
    true := by
  cases hd : decimal n with
  | nil => exact absurd hd (decimal_ne_nil n)
  | cons c rest =>
    have hc := decimal_isdigit n c
    rw [hd] at hc
    exact ⟨c,rest,rfl,hc mem_cons_self⟩

theorem scanDecimal_digit {b : Byte} (hb : isdigit b = true) (s : List Byte) :
    scanDecimal (b :: s) = some (digitsValue ((b :: s).takeWhile isdigit) : Int) := by
  have hs := isspace_of_isdigit hb
  have h45 : b ≠ 45 := fun h => absurd (h ▸ hb) (by decide)
  have h43 : b ≠ 43 := fun h => absurd (h ▸ hb) (by decide)
  simp [scanDecimal,hs,h45,h43,hb]

private theorem scanDecimal_minus {b : Byte} (hb : isdigit b = true) (s : List Byte) :
    scanDecimal (45 :: b :: s) = some (-(digitsValue ((b :: s).takeWhile isdigit) : Int)) := by
  have h45 : isspace 45 = false := by decide
  simp [scanDecimal,h45,hb]

private theorem takeWhile_decimal (n : Nat) {t : List Byte} (ht : t.takeWhile isdigit = []) :
    (bytes (decimal n) ++ t).takeWhile isdigit = bytes (decimal n) := by
  have hd : ∀ b ∈ bytes (decimal n), isdigit b = true := by
    intro b hb
    obtain ⟨c,hc,rfl⟩ := List.mem_map.mp hb
    exact decimal_isdigit n c hc
  rw [takeWhile_append_of_pos hd,ht,append_nil]

theorem scanDecimal_decimalInt (n : Int) {t : List Byte} (ht : t.takeWhile isdigit = []) :
    scanDecimal (bytes (decimalInt n) ++ t) = some n := by
  have htake := takeWhile_decimal n.natAbs ht
  have hv := digitsValue_decimal n.natAbs
  obtain ⟨c,rest,he,hc⟩ := head_decimal n.natAbs
  rw [he,bytes_cons] at htake hv
  rw [decimalInt]
  split
  · rw [he,bytes_cons,bytes_cons,cons_append,cons_append]
    change scanDecimal (45 :: c.val :: _) = _
    rw [scanDecimal_minus hc,← cons_append,htake,hv]
    exact congrArg some (by omega)
  · rw [he,bytes_cons,cons_append,scanDecimal_digit hc,← cons_append,htake,hv]
    exact congrArg some (by omega)

theorem scanDecimal_decimal (n : Nat) : scanDecimal (bytes (decimal n)) = some (n : Int) := by
  have hn : decimalInt n = decimal n := if_neg (by omega)
  have h := scanDecimal_decimalInt n (t := []) rfl
  rwa [append_nil,hn] at h

theorem decimalInt_injective {m n : Int} (h : decimalInt m = decimalInt n) : m = n := by
  have hm := scanDecimal_decimalInt m (t := []) rfl
  rw [h,scanDecimal_decimalInt n rfl] at hm
  exact (Option.some.inj hm).symm

/-- The range of an `int`. -/
def IsInt (n : Int) : Prop := -(2^31) ≤ n ∧ n < 2^31
deriving Decidable

theorem toInt_of_isInt {n : Int} (h : IsInt n) : toInt n = n := by
  rw [toInt,Int.bmod_def]
  rw [IsInt] at h
  norm_num at h ⊢
  omega

theorem atoi_decimalInt {n : Int} (h : IsInt n) {t : CString}
    (ht : (bytes t).takeWhile isdigit = []) : atoi (decimalInt n ++ t) = n := by
  rw [atoi,atol,bytes_append,scanDecimal_decimalInt n ht,Option.getD_some,toLong,toInt,
    Int.bmod_def]
  rw [IsInt] at h
  norm_num at h ⊢
  omega

theorem sscanfUnsignedLong_decimal (n old : UInt64) :
    sscanfUnsignedLong (decimal n.toNat) old = n := by
  have hlt := n.toNat_lt
  have hmod : ((n.toNat : Int) % 2^64).toNat = n.toNat := by omega
  simp only [sscanfUnsignedLong,scanDecimal_decimal,Int.natAbs_natCast,if_pos hlt,hmod]
  exact UInt64.ofNat_toNat

end Condor
