import Condor.Io.Stream

/-!
# Integers from one type to another

Every type writes the low 64 bits of its number. The receivers differ in what they check.
-/

namespace Condor.Io.Stream

open Lib IntegralType List

def word (v : Int) : Nat := (v % 2^64).toNat

theorem word_lt (v : Int) : word v < 2^64 := by
  rw [word]
  omega

theorem getBytes_append (bs rest : List Byte) :
    getBytes bs.length (bs ++ rest) = (.ok bs,rest) := by
  rw [getBytes,if_pos (by simp),take_left,drop_left]

private theorem getBytes_bigEndian (k n : Nat) (rest : List Byte) :
    getBytes k (bigEndian k n ++ rest) = (.ok (bigEndian k n),rest) := by
  have h := getBytes_append (bigEndian k n) rest
  rwa [length_bigEndian] at h

theorem toInt_nonneg_iff (i : BitVec 32) : 0 ≤ i.toInt ↔ i.toNat < 2^31 := by
  have h := i.isLt
  rw [BitVec.toInt_eq_toNat_cond]
  split <;> omega

private theorem bigEndian_ones : bigEndian 4 (2^32 - 1) = List.replicate 4 255 := by decide

theorem signPad_append (i : BitVec 32) :
    List.replicate 4 (signPad (0 ≤ i.toInt)) ++ bigEndian 4 i.toNat =
      bigEndian 8 (word i.toInt) := by
  have hlt := i.isLt
  have hlow : bigEndian 4 (word i.toInt) = bigEndian 4 i.toNat := by
    rw [bigEndian_eq_iff,word,BitVec.toInt_eq_toNat_cond]
    split <;> omega
  rw [show (8 : Nat) = 4 + 4 from rfl,bigEndian_add,hlow]
  congr 1
  by_cases hneg : 0 ≤ i.toInt
  · have hhigh : word i.toInt / 256 ^ 4 = 0 := by
      rw [toInt_nonneg_iff] at hneg
      rw [word,BitVec.toInt_eq_toNat_cond]
      split <;> omega
    rw [hhigh,bigEndian_zero]
    simp [signPad,hneg]
  · have hhigh : word i.toInt / 256 ^ 4 = 2^32 - 1 := by
      rw [toInt_nonneg_iff] at hneg
      rw [word,BitVec.toInt_eq_toNat_cond]
      split <;> omega
    rw [hhigh,bigEndian_ones]
    simp [signPad,hneg]

theorem zeroPad_append (i : BitVec 32) :
    List.replicate 4 0 ++ bigEndian 4 i.toNat = bigEndian 8 (word i.toNat) := by
  have hlt := i.isLt
  have hword : word i.toNat = i.toNat := by
    rw [word]
    omega
  rw [show (8 : Nat) = 4 + 4 from rfl,bigEndian_add,hword,
    show i.toNat / 256 ^ 4 = 0 by omega,bigEndian_zero]

private theorem word_toInt (l : BitVec 64) : word l.toInt = l.toNat := by
  have hlt := l.isLt
  rw [word,BitVec.toInt_eq_toNat_cond]
  split <;> omega

private theorem word_toNat (l : BitVec 64) : word l.toNat = l.toNat := by
  have hlt := l.isLt
  rw [word]
  omega

theorem put_external (s : IntegralType) (x : BitVec s.width) :
    put .external s x = some (bigEndian 8 (word (s.value x))) := by
  cases s with
  | short =>
    have hvalue : (BitVec.signExtend 32 x).toInt = x.toInt :=
      BitVec.toInt_signExtend_of_le (by decide)
    show some (_ ++ _) = _
    rw [show intSize - sizeofInt = 4 from rfl,show sizeofInt = 4 from rfl,signPad_append,hvalue]
    rfl
  | unsignedShort =>
    have hvalue : (BitVec.setWidth 32 x).toNat = x.toNat :=
      BitVec.toNat_setWidth_of_le (by decide)
    show some (_ ++ _) = _
    rw [show intSize - sizeofInt = 4 from rfl,show sizeofInt = 4 from rfl,zeroPad_append,hvalue]
    rfl
  | int => exact congrArg some (signPad_append x)
  | unsignedInt => exact congrArg some (zeroPad_append x)
  | long => exact congrArg (fun n => some (bigEndian 8 n)) (word_toInt x).symm
  | unsignedLong => exact congrArg (fun n => some (bigEndian 8 n)) (word_toNat x).symm

/-- What an `int` makes of 64 bits. -/
def receivedInt (n : Nat) : Except Unit (BitVec 32) :=
  if n < 2^31 ∨ 2^64 - 2^31 ≤ n then .ok (BitVec.ofNat 32 n) else .error ()

def receivedUnsignedInt (n : Nat) : Except Unit (BitVec 32) :=
  if n < 2^32 then .ok (BitVec.ofNat 32 n) else .error ()

private theorem all_eq_bigEndian {k m : Nat} {b : Byte} (hb : List.replicate k b = bigEndian k m)
    (n : Nat) :
    ((bigEndian k n).all (· == b)) = true ↔ n % 256 ^ k = m % 256 ^ k := by
  rw [← bigEndian_eq_iff,← hb,all_eq_true]
  constructor
  · intro h
    refine List.eq_replicate_iff.mpr ⟨length_bigEndian k n,fun c hc => ?_⟩
    exact beq_iff_eq.mp (h c hc)
  · intro h c hc
    rw [h] at hc
    exact beq_iff_eq.mpr (eq_of_mem_replicate hc)

private theorem bind_halves {α : Type} (n : Nat) (rest : List Byte)
    (f : List Byte → List Byte → Get α) :
    (do
      let pad ← getBytes 4
      let tmp ← getBytes 4
      f pad tmp) (bigEndian 8 n ++ rest) =
      f (bigEndian 4 (n / 2^32)) (bigEndian 4 n) rest := by
  have hhalves : bigEndian 8 n = bigEndian 4 (n / 2^32) ++ bigEndian 4 n := bigEndian_add 4 4 n
  rw [hhalves,append_assoc,Reader.bind_ok (getBytes_bigEndian 4 _ _),
    Reader.bind_ok (getBytes_bigEndian 4 _ _)]

private theorem checkPad_apply (pad : List Byte) (sign : Byte) (i : BitVec 32) (rest : List Byte) :
    checkPad pad sign i rest = (if pad.all (· == sign) then .ok i else .error (),rest) := by
  unfold checkPad
  split <;> rfl

private theorem ofNat_fromBigEndian (n : Nat) :
    BitVec.ofNat 32 (fromBigEndian (bigEndian 4 n)) = BitVec.ofNat 32 n := by
  rw [fromBigEndian_bigEndian]
  apply BitVec.eq_of_toNat_eq
  simp

variable {n : Nat}

theorem getInt_bigEndian (hn : n < 2^64) (rest : List Byte) :
    getInt .external (bigEndian 8 n ++ rest) = (receivedInt n,rest) := by
  refine (bind_halves n rest _).trans ?_
  rw [checkPad_apply,ofNat_fromBigEndian,receivedInt]
  have hsign : 0 ≤ (BitVec.ofNat 32 n).toInt ↔ n % 2^32 < 2^31 := by
    rw [toInt_nonneg_iff,BitVec.toNat_ofNat]
  refine congrArg (·,rest) (if_congr ?_ rfl rfl)
  by_cases hneg : n % 2^32 < 2^31
  · rw [signPad,if_pos (by simpa using hsign.mpr hneg),all_eq_bigEndian (bigEndian_zero 4).symm]
    omega
  · rw [signPad,if_neg (by simpa using (not_congr hsign).mpr hneg),
      all_eq_bigEndian bigEndian_ones.symm]
    omega

private theorem getUnsignedInt_bigEndian (hn : n < 2^64) (rest : List Byte) :
    getUnsignedInt .external (bigEndian 8 n ++ rest) = (receivedUnsignedInt n,rest) := by
  refine (bind_halves n rest _).trans ?_
  rw [checkPad_apply,ofNat_fromBigEndian,receivedUnsignedInt]
  refine congrArg (·,rest) (if_congr ?_ rfl rfl)
  rw [all_eq_bigEndian (bigEndian_zero 4).symm]
  omega

def received (n : Nat) : (r : IntegralType) → Except Unit (BitVec r.width)
  | .short => (receivedInt n).map (BitVec.setWidth 16)
  | .unsignedShort => (receivedUnsignedInt n).map (BitVec.setWidth 16)
  | .int => receivedInt n
  | .unsignedInt => receivedUnsignedInt n
  | .long => .ok (BitVec.ofNat 64 n)
  | .unsignedLong => .ok (BitVec.ofNat 64 n)

private theorem bind_pure_apply {α γ : Type} {p : Get α} {f : α → γ} {e : Except Unit α}
    {s rest : List Byte} (h : p s = (e,rest)) :
    (do
      let a ← p
      return f a) s = (e.map f,rest) := by
  cases e with
  | ok a => exact Reader.bind_ok h
  | error u => exact Reader.bind_error h

private theorem get_external (r : IntegralType) (hn : n < 2^64) (rest : List Byte) :
    get .external r (bigEndian 8 n ++ rest) = (received n r,rest) := by
  have hlong : ∀ m, fromBigEndian (bigEndian 8 m) = m % 2^64 := fromBigEndian_bigEndian 8
  cases r with
  | short => exact bind_pure_apply (getInt_bigEndian hn rest)
  | unsignedShort => exact bind_pure_apply (getUnsignedInt_bigEndian hn rest)
  | int => exact getInt_bigEndian hn rest
  | unsignedInt => exact getUnsignedInt_bigEndian hn rest
  | long | unsignedLong =>
    refine (bind_pure_apply (getBytes_bigEndian 8 n rest)).trans ?_
    rw [Except.map,hlong,Nat.mod_eq_of_lt hn]
    rfl

/-- The number arrives as it is or not at all, surely if the receiver's type holds it; `INT_SIZE`
bytes are taken. -/
def Keeps (s r : IntegralType) (x : BitVec s.width) : Prop :=
  ∃ bs, put .external s x = some bs ∧ bs.length = intSize ∧ ∀ rest,
    (get .external r (bs ++ rest)).2 = rest ∧
    (∀ y, (get .external r (bs ++ rest)).1 = .ok y → r.value y = s.value x) ∧
    (r.Fits (s.value x) → ∃ y, (get .external r (bs ++ rest)).1 = .ok y)

def Safe (r : IntegralType) (v : Int) : Prop :=
  match r with
  | .short => (-2^15 ≤ v ∧ v < 2^15) ∨ v < -2^31 ∨ (2^31 ≤ v ∧ v < 2^64 - 2^31)
  | .unsignedShort => v < 2^16 ∨ 2^32 ≤ v
  | .int => v < 2^64 - 2^31
  | .unsignedInt => True
  | .long => v < 2^63
  | .unsignedLong => 0 ≤ v

private theorem value_range (s : IntegralType) (x : BitVec s.width) :
    -2^63 ≤ s.value x ∧ s.value x < 2^64 := by
  have hlt := x.isLt
  cases s <;> simp only [value,signed,if_true,Bool.false_eq_true,if_false,
    BitVec.toInt_eq_toNat_cond] <;> dsimp only [width] at hlt ⊢ <;> (try split) <;> omega

private theorem fits_of_signed {t : IntegralType} (ht : t.signed = true) {v : Int} (h : t.Fits v) :
    -2^(t.width - 1) ≤ v ∧ v < 2^(t.width - 1) := by
  obtain ⟨x,rfl⟩ := h
  rw [value,if_pos ht]
  exact ⟨BitVec.le_toInt x,BitVec.toInt_lt⟩

private theorem fits_of_unsigned {t : IntegralType} (ht : t.signed = false) {v : Int}
    (h : t.Fits v) :
    0 ≤ v ∧ v < 2^t.width := by
  obtain ⟨x,rfl⟩ := h
  rw [value,ht,if_neg (by decide)]
  have hlt : (x.toNat : Int) < (2^t.width : Nat) := Int.ofNat_lt.mpr x.isLt
  rw [Nat.cast_pow] at hlt
  exact ⟨Int.natCast_nonneg _,hlt⟩

private theorem keeps_iff_received (s r : IntegralType) (x : BitVec s.width) :
    Keeps s r x ↔
      (∀ y, received (word (s.value x)) r = .ok y → r.value y = s.value x) ∧
      (r.Fits (s.value x) → ∃ y, received (word (s.value x)) r = .ok y) := by
  have hget := get_external r (word_lt (s.value x))
  rw [Keeps,put_external]
  constructor
  · rintro ⟨bs,hbs,-,hall⟩
    obtain rfl := Option.some.inj hbs
    have h := (hall []).2
    rwa [hget] at h
  · rintro h
    refine ⟨_,rfl,length_bigEndian _ _,fun rest => ?_⟩
    rw [hget]
    exact ⟨rfl,h⟩

private theorem receivedInt_eq_ok {y : BitVec 32} :
    receivedInt n = .ok y ↔ (n < 2^31 ∨ 2^64 - 2^31 ≤ n) ∧ BitVec.ofNat 32 n = y := by
  unfold receivedInt
  split <;> simp_all

private theorem receivedUnsignedInt_eq_ok {y : BitVec 32} :
    receivedUnsignedInt n = .ok y ↔ n < 2^32 ∧ BitVec.ofNat 32 n = y := by
  unfold receivedUnsignedInt
  split <;> simp_all

private theorem value_short (n : Nat) : value .short (BitVec.setWidth 16 (BitVec.ofNat 32 n)) =
    if n % 2^16 < 2^15 then ((n % 2^16 : Nat) : Int) else ((n % 2^16 : Nat) : Int) - 2^16 := by
  show (BitVec.setWidth 16 (BitVec.ofNat 32 n)).toInt = _
  rw [BitVec.toInt_eq_toNat_cond,BitVec.toNat_setWidth,BitVec.toNat_ofNat]
  split <;> split <;> omega

private theorem value_unsignedShort (n : Nat) :
    value .unsignedShort (BitVec.setWidth 16 (BitVec.ofNat 32 n)) = (n % 2^16 : Nat) := by
  show ((BitVec.setWidth 16 (BitVec.ofNat 32 n)).toNat : Int) = _
  rw [BitVec.toNat_setWidth,BitVec.toNat_ofNat]
  omega

theorem value_int (n : Nat) : value .int (BitVec.ofNat 32 n) =
    if n % 2^32 < 2^31 then ((n % 2^32 : Nat) : Int) else ((n % 2^32 : Nat) : Int) - 2^32 := by
  show (BitVec.ofNat 32 n).toInt = _
  rw [BitVec.toInt_eq_toNat_cond,BitVec.toNat_ofNat]
  split <;> split <;> omega

private theorem value_unsignedInt (n : Nat) :
    value .unsignedInt (BitVec.ofNat 32 n) = (n % 2^32 : Nat) := by
  show ((BitVec.ofNat 32 n).toNat : Int) = _
  rw [BitVec.toNat_ofNat]

private theorem value_long (n : Nat) : value .long (BitVec.ofNat 64 n) =
    if n % 2^64 < 2^63 then ((n % 2^64 : Nat) : Int) else ((n % 2^64 : Nat) : Int) - 2^64 := by
  show (BitVec.ofNat 64 n).toInt = _
  rw [BitVec.toInt_eq_toNat_cond,BitVec.toNat_ofNat]
  split <;> split <;> omega

private theorem value_unsignedLong (n : Nat) :
    value .unsignedLong (BitVec.ofNat 64 n) = (n % 2^64 : Nat) := by
  show ((BitVec.ofNat 64 n).toNat : Int) = _
  rw [BitVec.toNat_ofNat]

/-- What a receiver makes of the low 64 bits of a number between those of `long` and of
`unsigned long`. -/
def Delivers (r : IntegralType) (v : Int) : Prop :=
  (∀ y, received (word v) r = .ok y → r.value y = v) ∧
    (r.Fits v → ∃ y, received (word v) r = .ok y)

section Receivers

variable {v : Int} (hv : -2^63 ≤ v ∧ v < 2^64)

include hv

private theorem word_eq : (word v : Int) = if 0 ≤ v then v else v + 2^64 := by
  rw [word]
  split <;> omega

theorem delivers_int_iff : Delivers .int v ↔ v < 2^64 - 2^31 := by
  have hword := word_eq hv
  simp only [Delivers,received,receivedInt_eq_ok]
  constructor
  · rintro ⟨hvalue,-⟩
    by_contra hlarge
    have h := hvalue _ ⟨by split at hword <;> omega,rfl⟩
    rw [value_int] at h
    split at hword <;> split at h <;> omega
  · intro hsafe
    constructor
    · rintro y ⟨hn,rfl⟩
      rw [value_int]
      split at hword <;> split <;> omega
    · intro hfits
      have h : -2^31 ≤ v ∧ v < 2^31 := fits_of_signed rfl hfits
      exact ⟨_,by split at hword <;> omega,rfl⟩

private theorem delivers_unsignedInt : Delivers .unsignedInt v := by
  have hword := word_eq hv
  simp only [Delivers,received,receivedUnsignedInt_eq_ok]
  constructor
  · rintro y ⟨hn,rfl⟩
    rw [value_unsignedInt]
    split at hword <;> omega
  · intro hfits
    have h : 0 ≤ v ∧ v < 2^32 := fits_of_unsigned rfl hfits
    exact ⟨_,by split at hword <;> omega,rfl⟩

theorem delivers_short_iff :
    Delivers .short v ↔ (-2^15 ≤ v ∧ v < 2^15) ∨ v < -2^31 ∨ (2^31 ≤ v ∧ v < 2^64 - 2^31) := by
  have hword := word_eq hv
  have hok : ∀ y, received (word v) .short = .ok y ↔
      (word v < 2^31 ∨ 2^64 - 2^31 ≤ word v) ∧
        BitVec.setWidth 16 (BitVec.ofNat 32 (word v)) = y := by
    intro y
    unfold received receivedInt
    split <;> simp_all [Except.map]
  simp only [Delivers,hok]
  constructor
  · rintro ⟨hvalue,-⟩
    by_contra hnot
    have h := hvalue _ ⟨by split at hword <;> omega,rfl⟩
    rw [value_short] at h
    split at hword <;> split at h <;> omega
  · intro hsafe
    constructor
    · rintro y ⟨hn,rfl⟩
      rw [value_short]
      split at hword <;> split <;> omega
    · intro hfits
      have h : -2^15 ≤ v ∧ v < 2^15 := fits_of_signed rfl hfits
      exact ⟨_,by split at hword <;> omega,rfl⟩

theorem delivers_unsignedShort_iff : Delivers .unsignedShort v ↔ v < 2^16 ∨ 2^32 ≤ v := by
  have hword := word_eq hv
  have hok : ∀ y, received (word v) .unsignedShort = .ok y ↔
      word v < 2^32 ∧ BitVec.setWidth 16 (BitVec.ofNat 32 (word v)) = y := by
    intro y
    unfold received receivedUnsignedInt
    split <;> simp_all [Except.map]
  simp only [Delivers,hok]
  constructor
  · rintro ⟨hvalue,-⟩
    by_contra hnot
    have h := hvalue _ ⟨by split at hword <;> omega,rfl⟩
    rw [value_unsignedShort] at h
    split at hword <;> omega
  · intro hsafe
    constructor
    · rintro y ⟨hn,rfl⟩
      rw [value_unsignedShort]
      split at hword <;> omega
    · intro hfits
      have h : 0 ≤ v ∧ v < 2^16 := fits_of_unsigned rfl hfits
      exact ⟨_,by split at hword <;> omega,rfl⟩

theorem delivers_long_iff : Delivers .long v ↔ v < 2^63 := by
  have hword := word_eq hv
  simp only [Delivers,received]
  constructor
  · rintro ⟨hvalue,-⟩
    have h := hvalue _ rfl
    rw [value_long] at h
    split at hword <;> split at h <;> omega
  · intro hsafe
    constructor
    · rintro y hy
      rw [← Except.ok.inj hy,value_long]
      split at hword <;> split <;> omega
    · exact fun _ => ⟨_,rfl⟩

theorem delivers_unsignedLong_iff : Delivers .unsignedLong v ↔ 0 ≤ v := by
  have hword := word_eq hv
  simp only [Delivers,received]
  constructor
  · rintro ⟨hvalue,-⟩
    have h := hvalue _ rfl
    rw [value_unsignedLong] at h
    omega
  · intro hsafe
    constructor
    · rintro y hy
      rw [← Except.ok.inj hy,value_unsignedLong]
      split at hword <;> omega
    · exact fun _ => ⟨_,rfl⟩

theorem delivers_iff (r : IntegralType) : Delivers r v ↔ Safe r v := by
  cases r with
  | short => exact delivers_short_iff hv
  | unsignedShort => exact delivers_unsignedShort_iff hv
  | int => exact delivers_int_iff hv
  | unsignedInt => exact iff_of_true (delivers_unsignedInt hv) trivial
  | long => exact delivers_long_iff hv
  | unsignedLong => exact delivers_unsignedLong_iff hv

end Receivers

/-- A number read as another type is kept, or refused because it does not fit, exactly if the
receiver is safe for it. -/
theorem integer_keeps_iff (s r : IntegralType) (x : BitVec s.width) :
    Keeps s r x ↔ Safe r (s.value x) := by
  rw [keeps_iff_received]
  exact delivers_iff (value_range s x) r

/-- The `long` 65536 is read as the `short` 0. -/
theorem long_read_as_short_loses :
    ¬ ∀ (s r : IntegralType) (x : BitVec s.width), Keeps s r x := by
  intro hall
  obtain ⟨bs,hbs,-,h⟩ := hall .long .short 65536
  have hzero : (get .external .short (bs ++ [])).1 = .ok 0 := by
    rw [← Option.some.inj hbs]
    rfl
  have hvalue := (h []).2.1 0 hzero
  exact absurd hvalue (by decide)

end Condor.Io.Stream
