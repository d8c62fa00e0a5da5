import Condor.Utils.CString

/-!
# Buffers and chains of buffers

A `Buf` holds the bytes in use of a fixed-size array with a cursor among them.
-/

namespace Condor.Io

open List

def condorIoBufSize : Nat := 4096

structure Buf where
  dta : List Byte
  dtaPt : Nat
  pt_le : dtaPt ≤ dta.length
  sz_le : dta.length ≤ condorIoBufSize

namespace Buf

def new : Buf := ⟨[],0,by simp,by simp⟩

def untouched (b : Buf) : List Byte := b.dta.drop b.dtaPt

def numFree (b : Buf) : Nat := condorIoBufSize - b.dta.length

def empty (b : Buf) : Bool := b.dta.length == 0

def full (b : Buf) : Bool := b.dta.length == condorIoBufSize

def consumed (b : Buf) : Bool := b.dtaPt == b.dta.length

def putMax (b : Buf) (data : List Byte) : Buf × Nat :=
  (⟨b.dta ++ data.take b.numFree,b.dtaPt,by have h := b.pt_le; simp; omega,
    by have h := b.sz_le; simp [numFree]; omega⟩,min data.length b.numFree)

def getMax (b : Buf) (sz : Nat) : List Byte × Buf :=
  (b.untouched.take sz,
    ⟨b.dta,b.dtaPt + min sz (b.dta.length - b.dtaPt),by have h := b.pt_le; omega,b.sz_le⟩)

def find (b : Buf) (delim : Byte) : Option Nat := b.untouched.idxOf? delim

def peek (b : Buf) : Option Byte := if b.empty || b.consumed then none else b.untouched.head?

def seek (b : Buf) (pos : Nat) : Buf :=
  let pt := if pos < condorIoBufSize then pos else condorIoBufSize - 1
  ⟨b.dta ++ List.replicate (pt - b.dta.length) 0,pt,by simp; omega,by
    have h := b.sz_le
    have hpt : pt ≤ condorIoBufSize := by
      show (if pos < condorIoBufSize then pos else condorIoBufSize - 1) ≤ condorIoBufSize
      split <;> omega
    simp
    omega⟩

def flush (b : Buf) (hdr : List Byte) : List Byte × Buf :=
  ((hdr ++ b.dta.drop hdr.length).take b.dta.length,new)

def ofBytes (data : List Byte) (h : data.length ≤ condorIoBufSize) : Buf := ⟨data,0,by simp,h⟩

theorem length_untouched (b : Buf) : b.untouched.length = b.dta.length - b.dtaPt := by
  simp [untouched]

theorem consumed_iff (b : Buf) : b.consumed = true ↔ b.untouched = [] := by
  have h := b.pt_le
  simp only [consumed,beq_iff_eq,untouched,drop_eq_nil_iff]
  omega

private theorem getMax_length (b : Buf) (sz : Nat) :
    (b.getMax sz).1.length = min sz b.untouched.length := by
  simp [getMax]

theorem getMax_untouched (b : Buf) (sz : Nat) :
    (b.getMax sz).2.untouched = b.untouched.drop sz := by
  have h := b.pt_le
  rcases Nat.le_total sz (b.dta.length - b.dtaPt) with hle | hle
  · simp [getMax,untouched,Nat.min_eq_left hle]
  · simp only [getMax,untouched,Nat.min_eq_right hle]
    rw [Nat.add_sub_cancel' h,drop_length,drop_drop,drop_eq_nil_of_le (by omega)]

theorem seek_untouched {b : Buf} {pos : Nat} (hpos : pos ≤ b.dta.length)
    (hlt : pos < condorIoBufSize) :
    (b.seek pos).dta = b.dta ∧ (b.seek pos).untouched = b.dta.drop pos := by
  simp [seek,untouched,hlt,Nat.sub_eq_zero_of_le hpos]

theorem seek_clamped {b : Buf} {pos : Nat} (hpos : condorIoBufSize ≤ pos)
    (hsize : b.dta.length = condorIoBufSize) :
    (b.seek pos).untouched = b.dta.drop (condorIoBufSize - 1) := by
  simp [seek,untouched,Nat.not_lt.mpr hpos,hsize]

private theorem peek_eq (b : Buf) : b.peek = b.untouched.head? := by
  rw [peek]
  split
  · next h =>
    have hnil : b.untouched = [] := by
      rw [Bool.or_eq_true] at h
      rcases h with h | h
      · rw [empty,beq_iff_eq] at h
        apply eq_nil_of_length_eq_zero
        rw [length_untouched]
        omega
      · exact b.consumed_iff.mp h
    rw [hnil]
    rfl
  · rfl

end Buf

def flatPtr (bytes : List Byte) (delim : Byte) : Option (List Byte) × List Byte :=
  match bytes.idxOf? delim with
  | some i => (some (bytes.take (i + 1)),bytes.drop (i + 1))
  | none => (none,bytes)

theorem idxOf?_append (a : Byte) (xs ys : List Byte) :
    (xs ++ ys).idxOf? a = (xs.idxOf? a).or ((ys.idxOf? a).map (· + xs.length)) :=
  findIdx?_append

structure ChainBuf where
  passed : List Buf
  rest : List Buf

namespace ChainBuf

def new : ChainBuf := ⟨[],[]⟩

def consumed (c : ChainBuf) : Bool := ((c.passed ++ c.rest).getLast?.map Buf.consumed).getD true

def put (c : ChainBuf) (b : Buf) : ChainBuf :=
  if c.passed = [] ∧ c.rest = [] then ⟨[],[b]⟩
  else if c.rest = [] then ⟨c.passed ++ [b],[]⟩
  else ⟨c.passed,c.rest ++ [b]⟩

def getFrom (passed : List Buf) : List Buf → Nat → List Byte × ChainBuf
  | [], _ => ([],⟨passed,[]⟩)
  | b :: bs, sz =>
    if (b.getMax sz).1.length = sz then ((b.getMax sz).1,⟨passed,(b.getMax sz).2 :: bs⟩)
    else
      ((b.getMax sz).1 ++
          (getFrom (passed ++ [(b.getMax sz).2]) bs (sz - (b.getMax sz).1.length)).1,
        (getFrom (passed ++ [(b.getMax sz).2]) bs (sz - (b.getMax sz).1.length)).2)

def get (c : ChainBuf) (sz : Nat) : List Byte × ChainBuf := getFrom c.passed c.rest sz

def search (delim : Byte) : Nat → List Buf → Option Nat
  | _, [] => none
  | nr, b :: bs =>
    match b.find delim with
    | none => search delim (nr + b.untouched.length) bs
    | some tr => some (nr + tr)

def getTmp (c : ChainBuf) (delim : Byte) : Option (List Byte) × ChainBuf :=
  match c.rest with
  | [] => (none,c)
  | b :: bs =>
    match b.find delim with
    | some tr => (some (b.untouched.take (tr + 1)),
        ⟨c.passed,(b.seek 0).seek (b.dtaPt + tr + 1) :: bs⟩)
    | none =>
      if bs = [] then (none,c)
      else
        match search delim b.untouched.length bs with
        | none => (none,c)
        | some nr => (some (c.get (nr + 1)).1,(c.get (nr + 1)).2)

def peek (c : ChainBuf) : Option Byte × ChainBuf :=
  match c.rest with
  | [] => (none,c)
  | b :: bs =>
    match b.peek with
    | some ch => (some ch,c)
    | none => ((bs.head?.bind Buf.peek),⟨c.passed ++ [b],bs⟩)

def flat (c : ChainBuf) : List Byte := c.rest.flatMap Buf.untouched

/-- What has been passed is consumed, and what has not been reached is not. -/
structure Sound (c : ChainBuf) : Prop where
  passed : ∀ b ∈ c.passed, b.untouched = []
  ahead : ∀ b ∈ c.rest.tail, b.untouched ≠ []

def Roomy (c : ChainBuf) : Prop := ∀ b ∈ c.rest, b.dta.length < condorIoBufSize

variable {c : ChainBuf}

theorem consumed_iff (h : c.Sound) : c.consumed = true ↔ c.flat = [] := by
  rw [consumed,flat,flatMap_eq_nil_iff]
  rcases eq_nil_or_concat c.rest with hr | ⟨bs,b,hr⟩
  · rw [hr,append_nil]
    simp only [not_mem_nil,false_implies,implies_true,iff_true]
    cases hl : c.passed.getLast? with
    | none => rfl
    | some b => exact b.consumed_iff.mpr (h.passed b (mem_of_getLast? hl))
  · rw [concat_eq_append] at hr
    rw [hr,← append_assoc,getLast?_append]
    show b.consumed = true ↔ _
    rw [b.consumed_iff]
    constructor
    · intro hb x hx
      cases bs with
      | nil =>
        obtain rfl := List.mem_singleton.mp hx
        exact hb
      | cons b' bs =>
        -- the last buffer would be one that has not been reached
        have hahead : b ∈ c.rest.tail := by simp [hr]
        exact absurd hb (h.ahead b hahead)
    · intro hall
      exact hall b (by simp)

private theorem getFrom_spec (passed rest : List Buf) (sz : Nat) :
    (getFrom passed rest sz).1 = (rest.flatMap Buf.untouched).take sz ∧
      (getFrom passed rest sz).2.flat = (rest.flatMap Buf.untouched).drop sz := by
  induction rest generalizing passed sz with
  | nil => simp [getFrom,flat]
  | cons b bs ih =>
    have hlen := b.getMax_length sz
    rw [getFrom]
    split
    · next heq =>
      have hle : sz ≤ b.untouched.length := by omega
      simp only [flat,flatMap_cons,b.getMax_untouched,take_append_of_le_length hle,
        drop_append_of_le_length hle,and_true]
      rfl
    · next hne =>
      have hlt : b.untouched.length < sz := by omega
      have hall : (b.getMax sz).1 = b.untouched := take_of_length_le (Nat.le_of_lt hlt)
      obtain ⟨h1,h2⟩ := ih (passed ++ [(b.getMax sz).2]) (sz - b.untouched.length)
      simp only [hall,flatMap_cons,take_append,drop_append,h1,h2,
        take_of_length_le (Nat.le_of_lt hlt),drop_eq_nil_of_le (Nat.le_of_lt hlt)]
      simp

theorem get_bytes (c : ChainBuf) (sz : Nat) : (c.get sz).1 = c.flat.take sz :=
  (getFrom_spec c.passed c.rest sz).1

theorem get_flat (c : ChainBuf) (sz : Nat) : (c.get sz).2.flat = c.flat.drop sz :=
  (getFrom_spec c.passed c.rest sz).2

theorem getFrom_sound {passed rest : List Buf} (h : Sound ⟨passed,rest⟩) (sz : Nat) :
    (getFrom passed rest sz).2.Sound := by
  induction rest generalizing passed sz with
  | nil => exact h
  | cons b bs ih =>
    have hlen := b.getMax_length sz
    rw [getFrom]
    split
    · exact ⟨h.passed,h.ahead⟩
    · next hne =>
      apply ih
      constructor
      · intro x hx
        rcases List.mem_append.mp hx with hx | hx
        · exact h.passed x hx
        · obtain rfl := List.mem_singleton.mp hx
          rw [b.getMax_untouched]
          exact drop_eq_nil_of_le (by omega)
      · intro x hx
        exact h.ahead x (mem_of_mem_tail hx)

theorem getFrom_roomy {passed rest : List Buf} (h : Roomy ⟨passed,rest⟩) (sz : Nat) :
    (getFrom passed rest sz).2.Roomy := by
  induction rest generalizing passed sz with
  | nil => exact h
  | cons b bs ih =>
    rw [getFrom]
    split
    · intro x hx
      rcases List.mem_cons.mp hx with rfl | hx
      · exact h b mem_cons_self
      · exact h x (mem_cons_of_mem _ hx)
    · exact ih (fun x hx => h x (mem_cons_of_mem _ hx)) _

theorem getFrom_append (passed pre : List Buf) (b : Buf) (bs : List Buf) {k : Nat} (hk : 0 < k)
    (hle : k ≤ b.untouched.length) :
    ∃ passed', (getFrom passed (pre ++ b :: bs) ((pre.flatMap Buf.untouched).length + k)).2 =
      ⟨passed',(b.getMax k).2 :: bs⟩ := by
  induction pre generalizing passed with
  | nil =>
    have hlen := b.getMax_length k
    refine ⟨passed,?_⟩
    simp only [nil_append,flatMap_nil,length_nil,Nat.zero_add]
    rw [getFrom,if_pos (by omega)]
  | cons b' pre ih =>
    have hlen := b'.getMax_length (((b' :: pre).flatMap Buf.untouched).length + k)
    rw [flatMap_cons,length_append] at hlen
    rw [cons_append,getFrom,flatMap_cons,length_append,if_neg (by omega)]
    have hsub : b'.untouched.length + (pre.flatMap Buf.untouched).length + k -
        (b'.getMax (b'.untouched.length + (pre.flatMap Buf.untouched).length + k)).1.length =
          (pre.flatMap Buf.untouched).length + k := by omega
    dsimp only
    rw [hsub]
    exact ih _

private theorem search_eq (delim : Byte) (nr : Nat) (bs : List Buf) :
    search delim nr bs = ((bs.flatMap Buf.untouched).idxOf? delim).map (nr + ·) := by
  induction bs generalizing nr with
  | nil => rfl
  | cons b bs ih =>
    rw [search,Buf.find,flatMap_cons,idxOf?_append]
    cases b.untouched.idxOf? delim with
    | some tr => rfl
    | none =>
      dsimp only
      rw [ih,Option.none_or,Option.map_map]
      congr 1
      funext i
      show nr + b.untouched.length + i = nr + (i + b.untouched.length)
      omega

private theorem seek_find {b : Buf} {delim : Byte} {tr : Nat} (hf : b.find delim = some tr)
    (hb : b.dta.length < condorIoBufSize) :
    ((b.seek 0).seek (b.dtaPt + tr + 1)).dta = b.dta ∧
      ((b.seek 0).seek (b.dtaPt + tr + 1)).untouched = b.untouched.drop (tr + 1) := by
  obtain ⟨hlt,-⟩ := List.idxOf?_eq_some_iff.mp hf
  rw [b.length_untouched] at hlt
  obtain ⟨hdta,-⟩ := Buf.seek_untouched (Nat.zero_le b.dta.length) (Nat.zero_lt_of_lt hb)
  have hpos : b.dtaPt + tr + 1 ≤ (b.seek 0).dta.length := by
    rw [hdta]
    omega
  obtain ⟨h1,h2⟩ := Buf.seek_untouched hpos (by rw [hdta] at hpos; omega)
  rw [h1,h2,hdta,Buf.untouched,drop_drop]
  exact ⟨rfl,rfl⟩

theorem getTmp_spec (h : c.Roomy) (delim : Byte) :
    (c.getTmp delim).1 = (flatPtr c.flat delim).1 ∧
      (c.getTmp delim).2.flat = (flatPtr c.flat delim).2 := by
  obtain ⟨passed,rest⟩ := c
  cases rest with
  | nil => exact ⟨rfl,rfl⟩
  | cons b bs =>
    have hflat : flat ⟨passed,b :: bs⟩ = b.untouched ++ bs.flatMap Buf.untouched := rfl
    rw [getTmp,flatPtr]
    dsimp only
    cases hf : b.find delim with
    | some tr =>
      have hidx : (flat ⟨passed,b :: bs⟩).idxOf? delim = some tr := by
        rw [hflat,idxOf?_append,show b.untouched.idxOf? delim = some tr from hf]
        rfl
      obtain ⟨hlt,-⟩ := List.idxOf?_eq_some_iff.mp hf
      have hseek := seek_find hf (h b mem_cons_self)
      rw [hidx,hflat]
      dsimp only
      rw [take_append_of_le_length hlt,drop_append_of_le_length hlt,flat,
        flatMap_cons,hseek.2]
      exact ⟨rfl,rfl⟩
    | none =>
      have hidx : (flat ⟨passed,b :: bs⟩).idxOf? delim =
          search delim b.untouched.length bs := by
        rw [hflat,idxOf?_append,show b.untouched.idxOf? delim = none from hf,search_eq,
          Option.none_or]
        simp only [Nat.add_comm]
      rw [hidx]
      dsimp only
      split
      · next hnil =>
        rw [hnil,search]
        exact ⟨rfl,rfl⟩
      · cases search delim b.untouched.length bs with
        | none => exact ⟨rfl,rfl⟩
        | some nr =>
          exact ⟨congrArg some (get_bytes _ _),get_flat _ _⟩

theorem getTmp_sound (h : c.Sound) (delim : Byte) : (c.getTmp delim).2.Sound := by
  obtain ⟨passed,rest⟩ := c
  cases rest with
  | nil => exact h
  | cons b bs =>
    rw [getTmp]
    dsimp only
    split
    · exact ⟨h.passed,h.ahead⟩
    · split
      · exact h
      · split
        · exact h
        · exact getFrom_sound h _

theorem getTmp_roomy (h : c.Roomy) (delim : Byte) : (c.getTmp delim).2.Roomy := by
  obtain ⟨passed,rest⟩ := c
  cases rest with
  | nil => exact h
  | cons b bs =>
    rw [getTmp]
    dsimp only
    split
    · next tr hf =>
      have hb := h b mem_cons_self
      intro x hx
      rcases List.mem_cons.mp hx with rfl | hx
      · rw [(seek_find hf hb).1]
        exact hb
      · exact h x (mem_cons_of_mem _ hx)
    · split
      · exact h
      · split
        · exact h
        · exact getFrom_roomy h _

theorem peek_spec (h : c.Sound) :
    c.peek.1 = c.flat.head? ∧ c.peek.2.flat = c.flat ∧ c.peek.2.Sound := by
  obtain ⟨passed,rest⟩ := c
  cases rest with
  | nil => exact ⟨rfl,rfl,h⟩
  | cons b bs =>
    have hflat : flat ⟨passed,b :: bs⟩ = b.untouched ++ bs.flatMap Buf.untouched := rfl
    rw [peek,hflat]
    dsimp only
    rw [b.peek_eq]
    cases hb : b.untouched with
    | cons ch l =>
      rw [hb] at hflat
      exact ⟨rfl,hflat,h⟩
    | nil =>
      have hsound : Sound ⟨passed ++ [b],bs⟩ := by
        constructor
        · intro x hx
          rcases List.mem_append.mp hx with hx | hx
          · exact h.passed x hx
          · obtain rfl := List.mem_singleton.mp hx
            exact hb
        · intro x hx
          exact h.ahead x (mem_of_mem_tail hx)
      refine ⟨?_,rfl,hsound⟩
      cases bs with
      | nil => rfl
      | cons b' bs =>
        have hne := h.ahead b' mem_cons_self
        show b'.peek = (b'.untouched ++ _).head?
        rw [b'.peek_eq]
        cases hb' : b'.untouched with
        | nil => exact absurd hb' hne
        | cons ch l => rfl

theorem peek_roomy (h : c.Roomy) : c.peek.2.Roomy := by
  obtain ⟨passed,rest⟩ := c
  cases rest with
  | nil => exact h
  | cons b bs =>
    rw [peek]
    dsimp only
    split
    · exact h
    · intro x hx
      exact h x (mem_cons_of_mem _ hx)

end ChainBuf

end Condor.Io
