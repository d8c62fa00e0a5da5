import Condor.Utils.CString

/-!
# `fscanf` on the rest of a stream

Formats of blanks, ordinary characters and `%d`. The scanner looks at most one byte beyond what it
takes.
-/

namespace Condor

open List

inductive Directive
  | space
  | char (c : Byte)
  | int

/-- The numbers that were converted, the bytes that were not taken, and whether the input ended
before a directive could be matched. -/
structure Scanned where
  converted : List Int
  rest : List Byte
  ended : Bool

def skipSpace (s : List Byte) : List Byte := s.dropWhile isspace

def scanDigits (sign : Int) (s : List Byte) : Option Int × List Byte :=
  match s.takeWhile isdigit with
  | [] => (none,s)
  | ds => (some (sign * digitsValue ds),s.dropWhile isdigit)

def scanInt (s : List Byte) : Option Int × List Byte :=
  match s with
  | [] => (none,[])
  | b :: t => if b = 45 then scanDigits (-1) t else if b = 43 then scanDigits 1 t
    else scanDigits 1 (b :: t)

def scanf : List Directive → List Byte → Scanned
  | [], s => ⟨[],s,false⟩
  | .space :: ds, s => scanf ds (skipSpace s)
  | .char _ :: _, [] => ⟨[],[],true⟩
  | .char c :: ds, b :: s => if b = c then scanf ds s else ⟨[],b :: s,false⟩
  | .int :: ds, s =>
    match scanInt (skipSpace s) with
    | (none,rest) => ⟨[],rest,(skipSpace s).isEmpty⟩
    | (some v,rest) => { scanf ds rest with converted := v :: (scanf ds rest).converted }

/-- What `fscanf` returns: the number of conversions, or EOF. -/
def Scanned.retval (r : Scanned) : Int :=
  if r.converted = [] ∧ r.ended then -1 else r.converted.length

section Local

variable {p : Byte → Bool} {c : Byte}

theorem dropWhile_append (hc : p c = false) (u v : List Byte) :
    (u ++ c :: v).dropWhile p = u.dropWhile p ++ c :: v := by
  induction u with
  | nil => simp [hc]
  | cons b u ih =>
    by_cases hb : p b = true
    · simp [hb,ih]
    · simp [hb]

theorem takeWhile_append (hc : p c = false) (u v : List Byte) :
    (u ++ c :: v).takeWhile p = u.takeWhile p := by
  induction u with
  | nil => simp [hc]
  | cons b u ih =>
    by_cases hb : p b = true
    · simp [hb,ih]
    · simp [hb]

private theorem scanDigits_suffix (sign : Int) (s : List Byte) : (scanDigits sign s).2 <:+ s := by
  rw [scanDigits]
  split
  · exact suffix_rfl
  · exact dropWhile_suffix _

private theorem scanInt_suffix (s : List Byte) : (scanInt s).2 <:+ s := by
  cases s with
  | nil => exact suffix_rfl
  | cons b t =>
    rw [scanInt]
    split
    · exact (scanDigits_suffix _ _).trans (suffix_cons _ _)
    · split
      · exact (scanDigits_suffix _ _).trans (suffix_cons _ _)
      · exact scanDigits_suffix _ _

/-- What is left unread is the end of what was there. -/
theorem scanf_suffix (ds : List Directive) (s : List Byte) : (scanf ds s).rest <:+ s := by
  induction ds generalizing s with
  | nil => exact suffix_rfl
  | cons d ds ih =>
    cases d with
    | space =>
      rw [scanf]
      exact (ih _).trans (dropWhile_suffix _)
    | char c =>
      cases s with
      | nil => exact suffix_rfl
      | cons b s =>
        rw [scanf]
        split
        · exact (ih s).trans (suffix_cons _ _)
        · exact suffix_rfl
    | int =>
      have hint := scanInt_suffix (skipSpace s)
      have hskip : skipSpace s <:+ s := dropWhile_suffix _
      rw [scanf]
      split
      · next rest heq =>
        rw [heq] at hint
        exact hint.trans hskip
      · next v rest heq =>
        rw [heq] at hint
        exact (ih rest).trans (hint.trans hskip)

structure Ends (c : Byte) : Prop where
  space : isspace c = false
  digit : isdigit c = false
  minus : c ≠ 45
  plus : c ≠ 43

theorem scanDigits_append (hc : Ends c) (sign : Int) (u v : List Byte) :
    scanDigits sign (u ++ c :: v) = ((scanDigits sign u).1,(scanDigits sign u).2 ++ c :: v) := by
  rw [scanDigits,scanDigits,takeWhile_append hc.digit,dropWhile_append hc.digit]
  split <;> rfl

theorem scanInt_append (hc : Ends c) (u v : List Byte) :
    scanInt (u ++ c :: v) = ((scanInt u).1,(scanInt u).2 ++ c :: v) := by
  cases u with
  | nil =>
    show scanInt (c :: v) = (none,c :: v)
    rw [scanInt,if_neg hc.minus,if_neg hc.plus]
    exact scanDigits_append hc 1 [] v
  | cons b u =>
    rw [cons_append,scanInt,scanInt]
    split
    · exact scanDigits_append hc (-1) u v
    · split
      · exact scanDigits_append hc 1 u v
      · exact scanDigits_append hc 1 (b :: u) v

theorem scanf_local (hc : Ends c) (ds : List Directive) (u v v' : List Byte)
    (h : (c :: v).length ≤ (scanf ds (u ++ c :: v)).rest.length) :
    ∃ w, (scanf ds (u ++ c :: v)).rest = w ++ c :: v ∧
      scanf ds (u ++ c :: v') = { scanf ds (u ++ c :: v) with rest := w ++ c :: v' } := by
  induction ds generalizing u with
  | nil => exact ⟨u,rfl,rfl⟩
  | cons d ds ih =>
    cases d with
    | space =>
      have hskip : ∀ v, skipSpace (u ++ c :: v) = skipSpace u ++ c :: v :=
        dropWhile_append hc.space u
      rw [scanf,hskip] at h ⊢
      rw [scanf,hskip]
      exact ih _ h
    | char a =>
      cases u with
      | nil =>
        rw [nil_append,scanf] at h ⊢
        rw [nil_append,scanf]
        split at h
        · have hle := (scanf_suffix ds v).length_le
          rw [length_cons] at h
          omega
        · next hne =>
          rw [if_neg hne,if_neg hne]
          exact ⟨[],rfl,rfl⟩
      | cons b u =>
        rw [cons_append,scanf] at h ⊢
        rw [cons_append,scanf]
        by_cases hb : b = a
        · rw [if_pos hb] at h ⊢
          rw [if_pos hb]
          exact ih u h
        · rw [if_neg hb,if_neg hb]
          exact ⟨b :: u,rfl,rfl⟩
    | int =>
      have hskip : ∀ v, skipSpace (u ++ c :: v) = skipSpace u ++ c :: v :=
        dropWhile_append hc.space u
      rw [scanf,hskip,scanInt_append hc] at h ⊢
      rw [scanf,hskip,scanInt_append hc]
      cases hv : (scanInt (skipSpace u)).1 with
      | none =>
        refine ⟨(scanInt (skipSpace u)).2,rfl,?_⟩
        have hne : ∀ v, (skipSpace u ++ c :: v).isEmpty = false := by
          intro v
          cases skipSpace u <;> rfl
        simp [hne]
      | some n =>
        rw [hv] at h
        obtain ⟨w,hw,hw'⟩ := ih (scanInt (skipSpace u)).2 h
        refine ⟨w,hw,?_⟩
        simp only [hw']

end Local

theorem scanf_digits {ds s : List Byte} (hne : ds ≠ []) (hds : ∀ b ∈ ds, isdigit b = true)
    (hs : ∀ b ∈ s.head?, isdigit b = false) :
    scanf [.int] (ds ++ s) = ⟨[(digitsValue ds : Int)],s,false⟩ := by
  have htake : s.takeWhile isdigit = [] := by
    cases s with
    | nil => rfl
    | cons b s => simp [hs b rfl]
  have hdrop : s.dropWhile isdigit = s := by
    cases s with
    | nil => rfl
    | cons b s => simp [hs b rfl]
  have hscan : scanDigits 1 (ds ++ s) = (some (digitsValue ds : Int),s) := by
    rw [scanDigits,takeWhile_append_of_pos hds,dropWhile_append_of_pos hds,htake,hdrop,
      append_nil]
    cases ds with
    | nil => exact absurd rfl hne
    | cons d ds => simp
  cases ds with
  | nil => exact absurd rfl hne
  | cons d ds =>
    have hd := hds d mem_cons_self
    have hspace := isspace_of_isdigit hd
    have hminus : d ≠ 45 := by
      rintro rfl
      exact absurd hd (by decide)
    have hplus : d ≠ 43 := by
      rintro rfl
      exact absurd hd (by decide)
    have hskip : skipSpace (d :: ds ++ s) = d :: ds ++ s := by
      simp [skipSpace,hspace]
    rw [scanf,hskip]
    have hint : scanInt (d :: ds ++ s) = (some (digitsValue (d :: ds) : Int),s) := by
      rw [cons_append,scanInt,if_neg hminus,if_neg hplus]
      exact hscan
    rw [hint]
    rfl

end Condor
