import Mathlib.Data.List.GetD
import Condor.Lib.Wildcard
import Condor.Utils.CString

/-!
# Lists of strings with wildcards

`StringList::contains_withwildcard` writes terminators over the asterisks of an entry while it
compares the parts, so an entry is a buffer here.
-/

namespace Condor.StringList

open Lib.Wildcard List Option

def asteriskChar : Byte := 42

def buffer (s : CString) : List Byte := bytes s ++ [0]

def stringAt (x : List Byte) (i : Nat) : List Byte := (x.drop i).takeWhile (· ≠ 0)

def strchr (c : Byte) : List Byte → Option Nat
  | [] => none
  | b :: s => if b = c then some 0 else (strchr c s).map (· + 1)

def strrchr (c : Byte) : List Byte → Option Nat
  | [] => none
  | b :: s =>
    match strrchr c s with
    | some i => some (i+1)
    | none => if b = c then some 0 else none

def letter (anycase : Bool) (b : Byte) : Byte := if anycase then tolower b else b

/-- `strcmp` or `strcasecmp` is `MATCH`. -/
def sameText (anycase : Bool) (s t : List Byte) : Bool :=
  s.map (letter anycase) == t.map (letter anycase)

/-- `strncmp` or `strncasecmp` is `MATCH`. -/
def sameStart (anycase : Bool) (s t : List Byte) (n : Nat) : Bool :=
  sameText anycase (s.take n) (t.take n)

/-- `strstr` or `strcasestr` finds the pattern. -/
def occurs (anycase : Bool) (string pattern : List Byte) : Bool :=
  string.tails.any fun str => sameStart anycase str pattern pattern.length

def sameEnd (anycase : Bool) (string matchend : List Byte) : Option Bool :=
  let len := toInt string.length
  let matchendlen := toInt matchend.length
  if len < matchendlen then some false
  else
    let i := toInt (len - matchendlen)
    if 0 ≤ i ∧ i ≤ string.length then some (sameText anycase (string.drop i.toNat) matchend)
    else none

def sameBegin (anycase : Bool) (string x : List Byte) : Option Nat → Bool
  | none => true
  | some i => sameStart anycase (stringAt x i) string (stringAt x i).length

def matchParts (anycase : Bool) (string x : List Byte) (asterisk : Nat) (matchstart : Option Nat)
    (matchend : Nat) : Option Bool × List Byte :=
  let x := x.set asterisk 0
  let result := sameBegin anycase string x matchstart
  let result := if result then sameEnd anycase string (stringAt x matchend) else some false
  (result,x.set asterisk asteriskChar)

def matchEntry (anycase : Bool) (string x : List Byte) : Option Bool × List Byte :=
  match strchr asteriskChar (stringAt x 0) with
  | none => (some (sameText anycase (stringAt x 0) string),x)
  | some 0 =>
    match strrchr asteriskChar (stringAt x 0) with
    | none => matchParts anycase string x 0 none 1
    | some asterisk2 =>
      if x.getD (asterisk2 + 1) 0 = 0 ∧ asterisk2 ≠ 0 then
        let x := x.set asterisk2 0
        let pos := occurs anycase string (stringAt x 1)
        (some pos,x.set asterisk2 asteriskChar)
      else matchParts anycase string x 0 none 1
  | some (n+1) =>
    if x.getD (n + 2) 0 = 0 then
      let x := x.set (n + 1) 0
      let temp := sameStart anycase (stringAt x 0) string (stringAt x 0).length
      (some temp,x.set (n + 1) asteriskChar)
    else matchParts anycase string x (n + 1) (some 0) (n + 2)

structure Search where
  entries : List (List Byte)
  matchList : Option (List (List Byte))
  returned : Option (List Byte)
  deriving DecidableEq

def Search.behind (x : List Byte) (r : Search) : Search := { r with entries := x :: r.entries }

def searchEntries (anycase : Bool) (string : List Byte) :
    List (List Byte) → Option (List (List Byte)) → Option Search
  | [], matchList => some ⟨[],matchList,matchList.bind List.head?⟩
  | x :: rest, matchList =>
    let (result,x) := matchEntry anycase string x
    match result with
    | none => none
    | some false => (searchEntries anycase string rest matchList).map (.behind x)
    | some true =>
      match matchList with
      | none => some ⟨x :: rest,none,some (stringAt x 0)⟩
      | some ms =>
        (searchEntries anycase string rest (some (ms ++ [stringAt x 0]))).map (.behind x)

/-- `contains_withwildcard`, with a list of matches or without. -/
def containsWithwildcard (list : List (List Byte)) (string : Option CString) (anycase : Bool)
    (matchList : Option (List (List Byte))) : Option Search :=
  match string with
  | none => some ⟨list,matchList,none⟩
  | some string => searchEntries anycase (bytes string) list matchList

theorem stringAt_append {u : List Byte} (hu : ∀ b ∈ u, b ≠ 0) (pre more : List Byte) :
    stringAt (pre ++ (u ++ 0 :: more)) pre.length = u := by
  have h : ∀ b ∈ u, decide (b ≠ 0) = true := fun b hb => decide_eq_true (hu b hb)
  rw [stringAt,drop_left,takeWhile_append_of_pos h]
  simp

private theorem strchr_none {c : Byte} {s : List Byte} (h : c ∉ s) : strchr c s = none := by
  induction s with
  | nil => rfl
  | cons b s ih =>
    rw [mem_cons,not_or] at h
    rw [strchr,if_neg (Ne.symm h.1),ih h.2]
    rfl

theorem strchr_append {c : Byte} {a : List Byte} (h : c ∉ a) (b : List Byte) :
    strchr c (a ++ c :: b) = some a.length := by
  induction a with
  | nil => rw [nil_append,strchr,if_pos rfl,length_nil]
  | cons d a ih =>
    rw [mem_cons,not_or] at h
    rw [cons_append,strchr,if_neg (Ne.symm h.1),ih h.2,length_cons]
    rfl

private theorem strrchr_none {c : Byte} {s : List Byte} (h : c ∉ s) : strrchr c s = none := by
  induction s with
  | nil => rfl
  | cons b s ih =>
    rw [mem_cons,not_or] at h
    rw [strrchr,ih h.2]
    exact if_neg (Ne.symm h.1)

theorem strrchr_append {c : Byte} {b : List Byte} (h : c ∉ b) (a : List Byte) :
    strrchr c (a ++ c :: b) = some a.length := by
  induction a with
  | nil =>
    rw [nil_append,strrchr,strrchr_none h]
    exact if_pos rfl
  | cons d a ih =>
    rw [cons_append,strrchr,ih]
    rfl

theorem sameText_iff (anycase : Bool) (s t : List Byte) :
    sameText anycase s t = true ↔ s.map (letter anycase) = t.map (letter anycase) := beq_iff_eq

theorem sameStart_iff (anycase : Bool) (s t : List Byte) :
    sameStart anycase s t s.length = true ↔ s.map (letter anycase) <+: t.map (letter anycase) := by
  rw [sameStart,sameText_iff,take_length,map_take,prefix_iff_eq_take,length_map]

theorem occurs_iff (anycase : Bool) (s t : List Byte) :
    occurs anycase s t = true ↔ t.map (letter anycase) <:+: s.map (letter anycase) := by
  have hstart : ∀ str : List Byte, sameStart anycase str t t.length = true ↔
      t.map (letter anycase) <+: str.map (letter anycase) := by
    intro str
    rw [sameStart,sameText_iff,take_length,map_take,prefix_iff_eq_take,
      length_map,eq_comm]
  rw [occurs,List.any_eq_true]
  constructor
  · intro h
    obtain ⟨str,hmem,hstr⟩ := h
    rw [mem_tails] at hmem
    obtain ⟨pre,rfl⟩ := hmem
    rw [map_append]
    exact ((hstart str).mp hstr).isInfix.trans (suffix_append _ _).isInfix
  · intro h
    obtain ⟨l,r,hlr⟩ := h
    refine ⟨s.drop l.length,(mem_tails _ _).mpr (drop_suffix _ _),?_⟩
    rw [hstart,map_drop,← hlr,append_assoc,drop_left]
    exact prefix_append _ _

/-- The subject comes from the entry by replacing each asterisk with some string. -/
def Hit (anycase : Bool) (string e : CString) : Prop :=
  Matches asteriskChar (letter anycase) (bytes e) (bytes string)

def Shape (e : CString) : Prop :=
  (bytes e).count asteriskChar ≤ 1 ∨
    ∃ m : List Byte, asteriskChar ∉ m ∧ bytes e = asteriskChar :: (m ++ [asteriskChar])

def endStart (string b : List Byte) : Int := toInt (toInt string.length - toInt b.length)

/-- The parts around the asterisk do not overlap in the subject, or the lengths, as an `int`, rule
the comparison out. -/
def Apart (anycase : Bool) (string a b : List Byte) : Prop :=
  a.map (letter anycase) <+: string.map (letter anycase) →
    (toInt b.length ≤ toInt string.length →
      0 ≤ endStart string b ∧ endStart string b ≤ string.length) ∧
    (b.map (letter anycase) <:+ string.map (letter anycase) →
      (toInt b.length ≤ toInt string.length ∧
          endStart string b = (string.length : Int) - b.length ↔
        a.length + b.length ≤ string.length))

/-- For lengths that fit an `int` only the overlap is left. -/
theorem apart_iff {anycase : Bool} {string a b : List Byte} (hs : string.length < 2^31)
    (hb : b.length < 2^31) : Apart anycase string a b ↔
      (a.map (letter anycase) <+: string.map (letter anycase) →
        b.map (letter anycase) <:+ string.map (letter anycase) →
          a.length + b.length ≤ string.length) := by
  have hint : ∀ n : Int, -2^31 ≤ n → n < 2^31 → toInt n = n :=
    fun n h1 h2 => toInt_of_isInt ⟨h1,h2⟩
  have hend : endStart string b = (string.length : Int) - b.length := by
    rw [endStart,hint string.length (by omega) (by omega),hint b.length (by omega) (by omega),
      hint _ (by omega) (by omega)]
  rw [Apart,hend,hint string.length (by omega) (by omega),hint b.length (by omega) (by omega)]
  refine forall_congr' fun _ => ⟨fun h hsuffix => ?_,fun h => ⟨fun _ => by omega,fun hsuffix => ?_⟩⟩
  · have hle := hsuffix.length_le
    rw [length_map,length_map] at hle
    exact (h.2 hsuffix).mp ⟨by omega,rfl⟩
  · have hle := hsuffix.length_le
    rw [length_map,length_map] at hle
    exact ⟨fun _ => h hsuffix,fun _ => ⟨by omega,rfl⟩⟩

/-- The texts around the asterisk do not overlap in the string. -/
def Judged (anycase : Bool) (string e : CString) : Prop :=
  ∀ a b : List Byte, bytes e = a ++ asteriskChar :: b → asteriskChar ∉ a → asteriskChar ∉ b →
    (a = [] ∨ b ≠ []) → Apart anycase (bytes string) a b

def Tells (r : Option Bool) (P : Prop) : Prop := ∃ v, r = some v ∧ (v = true ↔ P)

private theorem tells_some {v : Bool} {P : Prop} : Tells (some v) P ↔ (v = true ↔ P) := by
  constructor
  · intro h
    obtain ⟨w,hw,hP⟩ := h
    rwa [some.inj hw]
  · intro h
    exact ⟨v,rfl,h⟩

private theorem not_tells_none {P : Prop} : ¬Tells none P := by
  intro h
  obtain ⟨v,hv,-⟩ := h
  cases hv

theorem drop_eq_iff {β : Type*} (s b : List β) {i : Nat} (hi : i ≤ s.length) :
    s.drop i = b ↔ b <:+ s ∧ i + b.length = s.length := by
  constructor
  · intro h
    subst h
    rw [length_drop]
    exact ⟨drop_suffix i s,by omega⟩
  · intro h
    obtain ⟨⟨l,rfl⟩,hlen⟩ := h
    rw [length_append] at hlen
    exact drop_left' (by omega)

private theorem sameEnd_tells (anycase : Bool) (string b : List Byte) (P : Prop) :
    Tells (sameEnd anycase string b) P ↔
      (toInt b.length ≤ toInt string.length →
        0 ≤ endStart string b ∧ endStart string b ≤ string.length) ∧
      (toInt b.length ≤ toInt string.length ∧
        endStart string b = (string.length : Int) - b.length ∧
        b.map (letter anycase) <:+ string.map (letter anycase) ↔ P) := by
  rw [sameEnd]
  dsimp only
  rw [show toInt (toInt string.length - toInt b.length) = endStart string b from rfl]
  by_cases hlen : toInt string.length < toInt b.length
  · have hnot : ¬toInt b.length ≤ toInt string.length := Int.not_le.mpr hlen
    rw [if_pos hlen,tells_some]
    simp only [hnot,false_and,Bool.false_eq_true,false_implies,true_and]
  · have hle : toInt b.length ≤ toInt string.length := Int.not_lt.mp hlen
    rw [if_neg hlen]
    by_cases hin : 0 ≤ endStart string b ∧ endStart string b ≤ string.length
    · have hi : (endStart string b).toNat ≤ (string.map (letter anycase)).length := by
        rw [length_map]
        omega
      have hplace : (endStart string b).toNat + b.length = string.length ↔
          endStart string b = (string.length : Int) - b.length := by omega
      rw [if_pos hin,tells_some,sameText_iff,map_drop,drop_eq_iff _ _ hi,length_map,
        length_map,hplace,and_comm]
      simp only [hle,true_and,true_implies,hin]
    · rw [if_neg hin]
      constructor
      · intro h
        exact absurd h not_tells_none
      · intro h
        exact absurd (h.1 hle) hin

private theorem parts_tell {anycase : Bool} {string a b : List Byte}
    (ha : a.map (letter anycase) <+: string.map (letter anycase)) :
    Tells (sameEnd anycase string b)
        (a.map (letter anycase) <+: string.map (letter anycase) ∧
          b.map (letter anycase) <:+ string.map (letter anycase) ∧
          a.length + b.length ≤ string.length) ↔ Apart anycase string a b := by
  rw [sameEnd_tells,Apart]
  constructor
  · intro h _
    refine ⟨h.1,fun hb => ?_⟩
    constructor
    · intro hl
      exact (h.2.mp ⟨hl.1,hl.2,hb⟩).2.2
    · intro hl
      obtain ⟨hle,hstart,-⟩ := h.2.mpr ⟨ha,hb,hl⟩
      exact ⟨hle,hstart⟩
  · intro h
    refine ⟨(h ha).1,?_⟩
    constructor
    · intro hl
      exact ⟨ha,hl.2.2,((h ha).2 hl.2.2).mp ⟨hl.1,hl.2.1⟩⟩
    · intro hl
      obtain ⟨hle,hstart⟩ := ((h ha).2 hl.2.1).mpr hl.2.2
      exact ⟨hle,hstart,hl.2.1⟩

private theorem stringAt_buffer (e : CString) : stringAt (buffer e) 0 = bytes e :=
  stringAt_append (fun _ hb => ne_zero_of_mem_bytes hb) [] []

section Cut

variable {e : CString} {a b : List Byte} (he : bytes e = a ++ asteriskChar :: b)
include he

private theorem buffer_parts : buffer e = a ++ asteriskChar :: (b ++ [0]) := by
  rw [buffer,he,append_assoc,cons_append]

private theorem cut_eq : (buffer e).set a.length 0 = a ++ 0 :: (b ++ [0]) := by
  rw [buffer_parts he,set_append_right _ _ (Nat.le_refl _),Nat.sub_self,set_cons_zero]

private theorem set_cut : ((buffer e).set a.length 0).set a.length asteriskChar = buffer e := by
  rw [cut_eq he,set_append_right _ _ (Nat.le_refl _),Nat.sub_self,set_cons_zero,
    buffer_parts he]

private theorem stringAt_cut {i : Nat} (hi : i ≤ a.length) :
    stringAt ((buffer e).set a.length 0) i = a.drop i := by
  have hnz : ∀ c ∈ a.drop i, c ≠ 0 := by
    intro c hc
    have hm : c ∈ bytes e := by
      rw [he]
      exact mem_append_left _ (mem_of_mem_drop hc)
    exact ne_zero_of_mem_bytes hm
  have h := stringAt_append hnz (a.take i) (b ++ [0])
  rwa [← append_assoc,take_append_drop,length_take,Nat.min_eq_left hi,
    ← cut_eq he] at h

private theorem stringAt_behind_cut :
    stringAt ((buffer e).set a.length 0) (a.length + 1) = b := by
  have hnz : ∀ c ∈ b, c ≠ 0 := by
    intro c hc
    have hm : c ∈ bytes e := by
      rw [he]
      exact mem_append_right _ (mem_cons_of_mem _ hc)
    exact ne_zero_of_mem_bytes hm
  have h := stringAt_append hnz (a ++ [0]) []
  rwa [append_assoc,singleton_append,length_append,length_singleton,
    ← cut_eq he] at h

private theorem next_byte : (buffer e).getD (a.length + 1) 0 = b.headD 0 := by
  rw [buffer_parts he,getD_append_right _ _ _ _ (Nat.le_succ _),
    Nat.succ_sub (Nat.le_refl _),Nat.sub_self]
  cases b <;> rfl

end Cut

private theorem matchEntry_plain (anycase : Bool) (string : List Byte) {e : CString}
    (h : asteriskChar ∉ bytes e) :
    matchEntry anycase string (buffer e) = (some (sameText anycase (bytes e) string),buffer e) := by
  rw [matchEntry,stringAt_buffer,strchr_none h]

private theorem matchEntry_between (anycase : Bool) (string : List Byte) {e : CString}
    {m : List Byte}
    (he : bytes e = asteriskChar :: (m ++ [asteriskChar])) :
    matchEntry anycase string (buffer e) = (some (occurs anycase string m),buffer e) := by
  have hcut : bytes e = (asteriskChar :: m) ++ asteriskChar :: [] := he
  have hfirst : strchr asteriskChar (bytes e) = some 0 := by
    rw [he]
    exact strchr_append not_mem_nil _
  have hlast : strrchr asteriskChar (bytes e) = some (m.length + 1) := by
    rw [hcut]
    exact strrchr_append not_mem_nil _
  have hnext : (buffer e).getD (m.length + 1 + 1) 0 = 0 := next_byte hcut
  have hmid : stringAt ((buffer e).set (m.length + 1) 0) 1 = m :=
    stringAt_cut hcut (Nat.succ_le_succ (Nat.zero_le _))
  have hback : ((buffer e).set (m.length + 1) 0).set (m.length + 1) asteriskChar = buffer e :=
    set_cut hcut
  rw [matchEntry,stringAt_buffer,hfirst]
  dsimp only
  rw [hlast]
  dsimp only
  rw [if_pos ⟨hnext,Nat.succ_ne_zero _⟩,hmid,hback]

private theorem matchEntry_start (anycase : Bool) (string : List Byte) {e : CString} {a : List Byte}
    (ha : asteriskChar ∉ a) (hne : a ≠ []) (he : bytes e = a ++ [asteriskChar]) :
    matchEntry anycase string (buffer e) =
      (some (sameStart anycase a string a.length),buffer e) := by
  obtain ⟨n,hn⟩ := Nat.exists_eq_succ_of_ne_zero (mt List.length_eq_zero_iff.mp hne)
  have hfirst : strchr asteriskChar (bytes e) = some (n + 1) := by
    rw [he,strchr_append ha,hn]
  have hnext : (buffer e).getD (n + 2) 0 = 0 := by
    have h := next_byte he
    rwa [hn] at h
  have hstart := stringAt_cut he (Nat.zero_le _)
  have hback := set_cut he
  rw [hn] at hstart hback
  rw [matchEntry,stringAt_buffer,hfirst]
  dsimp only
  rw [if_pos hnext,hstart,hback,drop_zero]

private theorem matchParts_eq (anycase : Bool) (string : List Byte) {e : CString} {a b : List Byte}
    (he : bytes e = a ++ asteriskChar :: b) {matchstart : Option Nat}
    (hstart : matchstart = some 0 ∨ matchstart = none ∧ a = []) :
    matchParts anycase string (buffer e) a.length matchstart (a.length + 1) =
      (if sameStart anycase a string a.length then sameEnd anycase string b else some false,
        buffer e) := by
  have hfirst : stringAt ((buffer e).set a.length 0) 0 = a := by
    rw [stringAt_cut he (Nat.zero_le _),drop_zero]
  have hresult : sameBegin anycase string ((buffer e).set a.length 0) matchstart =
      sameStart anycase a string a.length := by
    cases hstart with
    | inl h => rw [h,sameBegin,hfirst]
    | inr h =>
      rw [h.1,h.2]
      rfl
  rw [matchParts,hresult,set_cut he,stringAt_behind_cut he]

private theorem matchEntry_parts (anycase : Bool) (string : List Byte) {e : CString}
    {a b : List Byte}
    (ha : asteriskChar ∉ a) (hb : asteriskChar ∉ b) (hne : a = [] ∨ b ≠ [])
    (he : bytes e = a ++ asteriskChar :: b) :
    matchEntry anycase string (buffer e) =
      (if sameStart anycase a string a.length then sameEnd anycase string b else some false,
        buffer e) := by
  have hfirst : strchr asteriskChar (bytes e) = some a.length := by
    rw [he,strchr_append ha]
  cases hlen : a.length with
  | zero =>
    have ha' : a = [] := List.length_eq_zero_iff.mp hlen
    have hlast : strrchr asteriskChar (bytes e) = some 0 := by
      rw [he,strrchr_append hb,hlen]
    have hparts := matchParts_eq anycase string he (.inr ⟨rfl,ha'⟩)
    rw [hlen] at hfirst hparts
    rw [matchEntry,stringAt_buffer,hfirst]
    dsimp only
    rw [hlast]
    dsimp only
    rw [if_neg (fun h => h.2 rfl)]
    exact hparts
  | succ n =>
    have hb' : b ≠ [] := by
      cases hne with
      | inl h =>
        rw [h] at hlen
        exact absurd hlen (Nat.succ_ne_zero n).symm
      | inr h => exact h
    have hnext : (buffer e).getD (n + 2) 0 ≠ 0 := by
      have h := next_byte he
      rw [hlen] at h
      rw [h]
      cases b with
      | nil => exact absurd rfl hb'
      | cons c b =>
        have hm : c ∈ bytes e := by
          rw [he]
          simp
        exact ne_zero_of_mem_bytes hm
    have hparts := matchParts_eq anycase string he (.inl rfl)
    rw [hlen] at hfirst hparts
    rw [matchEntry,stringAt_buffer,hfirst]
    dsimp only
    rw [if_neg hnext]
    exact hparts

private theorem split_unique {a b a' b' : List Byte} (ha : asteriskChar ∉ a)
    (ha' : asteriskChar ∉ a')
    (h : a ++ asteriskChar :: b = a' ++ asteriskChar :: b') : a = a' ∧ b = b' := by
  have hlen : a.length = a'.length := by
    have hchr := strchr_append ha b
    rw [h,strchr_append ha'] at hchr
    exact (some.inj hchr).symm
  obtain ⟨h1,h2⟩ := append_inj h hlen
  exact ⟨h1,(List.cons.inj h2).2⟩

private theorem judged_plain {anycase : Bool} {string e : CString} (h : asteriskChar ∉ bytes e) :
    Judged anycase string e := by
  intro a b he _ _ _
  rw [he] at h
  exact absurd (mem_append_right _ (mem_cons_self ..)) h

private theorem judged_between {anycase : Bool} {string e : CString} {m : List Byte}
    (he : bytes e = asteriskChar :: (m ++ [asteriskChar])) : Judged anycase string e := by
  intro a b hab ha hb _
  have hnil : asteriskChar ∉ ([] : List Byte) := not_mem_nil
  rw [he] at hab
  have hsplit := split_unique hnil ha (a := []) hab
  rw [← hsplit.2] at hb
  exact absurd (mem_append_right _ (mem_singleton_self _)) hb

private theorem judged_start {anycase : Bool} {string e : CString} {a : List Byte}
    (ha : asteriskChar ∉ a) (hne : a ≠ []) (he : bytes e = a ++ [asteriskChar]) :
    Judged anycase string e := by
  intro a' b' hab ha' _ hne'
  rw [he] at hab
  obtain ⟨rfl,rfl⟩ := split_unique ha ha' hab
  exact absurd hne' (not_or.mpr ⟨hne,not_not.mpr rfl⟩)

private theorem judged_parts {anycase : Bool} {string e : CString} {a b : List Byte}
    (ha : asteriskChar ∉ a) (hb : asteriskChar ∉ b) (hne : a = [] ∨ b ≠ [])
    (he : bytes e = a ++ asteriskChar :: b) :
    Judged anycase string e ↔ Apart anycase (bytes string) a b := by
  constructor
  · intro h
    exact h a b he ha hb hne
  · intro h a' b' hab ha' _ _
    rw [he] at hab
    obtain ⟨rfl,rfl⟩ := split_unique ha ha' hab
    exact h

theorem Shape.cases {e : CString} (h : Shape e) :
    asteriskChar ∉ bytes e ∨
      (∃ m : List Byte, asteriskChar ∉ m ∧ bytes e = asteriskChar :: (m ++ [asteriskChar])) ∨
      (∃ a : List Byte, asteriskChar ∉ a ∧ a ≠ [] ∧ bytes e = a ++ [asteriskChar]) ∨
      ∃ a b : List Byte, asteriskChar ∉ a ∧ asteriskChar ∉ b ∧ (a = [] ∨ b ≠ []) ∧
        bytes e = a ++ asteriskChar :: b := by
  by_cases hplain : asteriskChar ∈ bytes e
  · right
    cases h with
    | inr h => exact .inl h
    | inl h =>
      right
      obtain ⟨a,b,he,ha⟩ := eq_append_cons_of_mem hplain
      have hb : asteriskChar ∉ b := by
        rw [he,count_append,count_cons_self,count_eq_zero_of_not_mem ha] at h
        exact List.count_eq_zero.mp (by omega)
      by_cases ha0 : a = []
      · exact .inr ⟨a,b,ha,hb,.inl ha0,he⟩
      · by_cases hb0 : b = []
        · rw [hb0] at he
          exact .inl ⟨a,ha,ha0,he⟩
        · exact .inr ⟨a,b,ha,hb,.inr hb0,he⟩
  · exact .inl hplain

def verdict (anycase : Bool) (string e : CString) : Option Bool :=
  (matchEntry anycase (bytes string) (buffer e)).1

private theorem matchEntry_buffer {string e : CString} (anycase : Bool) (h : Shape e) :
    matchEntry anycase (bytes string) (buffer e) = (verdict anycase string e,buffer e) := by
  have hleft : (matchEntry anycase (bytes string) (buffer e)).2 = buffer e := by
    rcases h.cases with h | ⟨m,-,he⟩ | ⟨a,ha,hne,he⟩ | ⟨a,b,ha,hb,hne,he⟩
    · rw [matchEntry_plain _ _ h]
    · rw [matchEntry_between _ _ he]
    · rw [matchEntry_start _ _ ha hne he]
    · rw [matchEntry_parts _ _ ha hb hne he]
  exact Prod.ext rfl hleft

private theorem verdict_tells {string e : CString} (anycase : Bool) (h : Shape e) :
    Tells (verdict anycase string e) (Hit anycase string e) ↔ Judged anycase string e := by
  rw [verdict,Hit]
  rcases h.cases with h | ⟨m,hm,he⟩ | ⟨a,ha,hne,he⟩ | ⟨a,b,ha,hb,hne,he⟩
  · rw [matchEntry_plain _ _ h,tells_some,sameText_iff,matches_plain h]
    exact ⟨fun _ => judged_plain h,fun _ => Iff.rfl⟩
  · rw [matchEntry_between _ _ he,tells_some,occurs_iff,he,matches_between hm]
    exact ⟨fun _ => judged_between he,fun _ => Iff.rfl⟩
  · rw [matchEntry_start _ _ ha hne he,tells_some,sameStart_iff,he,
      matches_one ha not_mem_nil]
    refine ⟨fun _ => judged_start ha hne he,fun _ => ⟨fun hp => ?_,fun hp => hp.1⟩⟩
    have hlen := hp.length_le
    rw [length_map,length_map] at hlen
    exact ⟨hp,nil_suffix,hlen⟩
  · rw [matchEntry_parts _ _ ha hb hne he,judged_parts ha hb hne he,he,matches_one ha hb]
    dsimp only
    by_cases hstart : a.map (letter anycase) <+: (bytes string).map (letter anycase)
    · rw [if_pos ((sameStart_iff ..).mpr hstart)]
      exact parts_tell hstart
    · rw [if_neg (mt (sameStart_iff ..).mp hstart),tells_some]
      constructor
      · intro _ hp
        exact absurd hp hstart
      · intro _
        exact ⟨fun hf => absurd hf Bool.false_ne_true,fun hp => absurd hp.1 hstart⟩

section Search

variable {anycase : Bool} {string : CString} {list : List CString}

theorem searchEntries_cons {e : CString} (he : Shape e) (rest : List CString)
    (matchList : Option (List (List Byte))) :
    searchEntries anycase (bytes string) ((e :: rest).map buffer) matchList =
      match verdict anycase string e with
      | none => none
      | some false =>
        (searchEntries anycase (bytes string) (rest.map buffer) matchList).map (.behind (buffer e))
      | some true =>
        match matchList with
        | none => some ⟨(e :: rest).map buffer,none,some (bytes e)⟩
        | some ms =>
          (searchEntries anycase (bytes string) (rest.map buffer) (some (ms ++ [bytes e]))).map
            (.behind (buffer e)) := by
  rw [map_cons,searchEntries,matchEntry_buffer anycase he]
  dsimp only
  rw [stringAt_buffer]

private theorem searchEntries_all (h : ∀ e ∈ list, Shape e) (ms : List (List Byte))
    (hv : ∀ e ∈ list, verdict anycase string e ≠ none) :
    searchEntries anycase (bytes string) (list.map buffer) (some ms) =
      let found := ms ++ (list.filter fun e => verdict anycase string e == some true).map bytes
      some ⟨list.map buffer,some found,found.head?⟩ := by
  induction list generalizing ms with
  | nil =>
    dsimp only
    rw [filter_nil,map_nil,map_nil,append_nil]
    rfl
  | cons e rest ih =>
    have hrest := fun x hx => h x (mem_cons_of_mem e hx)
    have hvrest := fun x hx => hv x (mem_cons_of_mem e hx)
    rw [searchEntries_cons (h e (mem_cons_self ..))]
    cases hve : verdict anycase string e with
    | none => exact absurd hve (hv e (mem_cons_self ..))
    | some v =>
      cases v with
      | false =>
        dsimp only
        rw [ih hrest ms hvrest,filter_cons_of_neg (by rw [hve]; decide)]
        rfl
      | true =>
        dsimp only
        rw [ih hrest _ hvrest,filter_cons_of_pos (by rw [hve]; decide),map_cons,
          append_assoc]
        rfl

private theorem searchEntries_undefined (h : ∀ e ∈ list, Shape e) (ms : List (List Byte))
    {e : CString}
    (he : e ∈ list) (hv : verdict anycase string e = none) :
    searchEntries anycase (bytes string) (list.map buffer) (some ms) = none := by
  induction list generalizing ms with
  | nil => exact absurd he not_mem_nil
  | cons x rest ih =>
    have hrest := fun y hy => h y (mem_cons_of_mem x hy)
    rw [searchEntries_cons (h x (mem_cons_self ..))]
    cases hvx : verdict anycase string x with
    | none => rfl
    | some v =>
      have hmem : e ∈ rest := by
        cases List.mem_cons.mp he with
        | inl heq =>
          rw [← heq,hv] at hvx
          cases hvx
        | inr hm => exact hm
      cases v with
      | false =>
        dsimp only
        rw [ih hrest ms hmem]
        rfl
      | true =>
        dsimp only
        rw [ih hrest _ hmem]
        rfl

private theorem searchEntries_returned (h : ∀ e ∈ list, Shape e) {r : Search} {t : List Byte}
    (hr : searchEntries anycase (bytes string) (list.map buffer) none = some r)
    (ht : r.returned = some t) :
    ∃ e ∈ list, verdict anycase string e = some true ∧ t = bytes e := by
  induction list generalizing r with
  | nil =>
    rw [map_nil,searchEntries,some.injEq] at hr
    rw [← hr] at ht
    cases ht
  | cons x rest ih =>
    have hrest := fun y hy => h y (mem_cons_of_mem x hy)
    rw [searchEntries_cons (h x (mem_cons_self ..))] at hr
    cases hvx : verdict anycase string x with
    | none =>
      rw [hvx] at hr
      cases hr
    | some v =>
      rw [hvx] at hr
      cases v with
      | false =>
        obtain ⟨r',hr',rfl⟩ := Option.map_eq_some_iff.mp hr
        obtain ⟨e,he,hve,hte⟩ := ih hrest hr' ht
        exact ⟨e,mem_cons_of_mem x he,hve,hte⟩
      | true =>
        rw [← some.inj hr] at ht
        exact ⟨x,mem_cons_self ..,hvx,(some.inj ht).symm⟩

end Search

open Classical in
/-- The entries that the subject comes from, in list order. -/
noncomputable def hits (anycase : Bool) (string : CString) (list : List CString) : List CString :=
  list.filter fun e => decide (Hit anycase string e)

/-- The search reports the entries that match, the first one without a list of matches, and
leaves every entry as it was. -/
def Globs (anycase : Bool) (list : List CString) (string : CString)
    (matchList : Option (List CString)) : Prop :=
  containsWithwildcard (list.map buffer) (some string) anycase (matchList.map (List.map bytes)) =
    match matchList with
    | none => some ⟨list.map buffer,none,(hits anycase string list).head?.map bytes⟩
    | some ms =>
      let found := (ms ++ hits anycase string list).map bytes
      some ⟨list.map buffer,some found,found.head?⟩

/-- The entry at the head of the rest is looked at: there is a list of matches, or no entry before
it matches. -/
def LookedAt (anycase : Bool) (string : CString) (matchList : Option (List CString))
    (before : List CString) : Prop :=
  matchList = none → ∀ x ∈ before, ¬Hit anycase string x

private theorem bytes_injective {s t : CString} (h : bytes s = bytes t) : s = t := by
  rw [← toCString_bytes s,h,toCString_bytes]

open Classical in
theorem globs_some_iff {anycase : Bool} {list : List CString} {string : CString}
    (h : ∀ e ∈ list, Shape e) (ms : List CString) :
    Globs anycase list string (some ms) ↔ ∀ e ∈ list, Judged anycase string e := by
  show searchEntries anycase (bytes string) (list.map buffer) (some (ms.map bytes)) =
    some ⟨list.map buffer,some ((ms ++ hits anycase string list).map bytes),_⟩ ↔ _
  constructor
  · intro hg e he
    have hdefined : ∀ x ∈ list, verdict anycase string x ≠ none := by
      intro x hx hv
      rw [searchEntries_undefined h _ hx hv] at hg
      cases hg
    rw [searchEntries_all h _ hdefined] at hg
    have hfound := congrArg Search.matchList (some.inj hg)
    dsimp only at hfound
    rw [some.injEq,map_append] at hfound
    have hsame := List.map_injective_iff.mpr (fun _ _ => bytes_injective)
      (append_cancel_left hfound)
    have hmem : e ∈ list.filter (fun e => verdict anycase string e == some true) ↔
        e ∈ hits anycase string list := by rw [hsame]
    rw [hits,mem_filter,mem_filter,decide_eq_true_iff,beq_iff_eq,
      and_iff_right he,and_iff_right he] at hmem
    rw [← verdict_tells anycase (h e he)]
    cases hv : verdict anycase string e with
    | none => exact absurd hv (hdefined e he)
    | some v =>
      rw [hv,some.injEq] at hmem
      exact tells_some.mpr hmem
  · intro hj
    have htells : ∀ x ∈ list, Tells (verdict anycase string x) (Hit anycase string x) := by
      intro x hx
      exact (verdict_tells anycase (h x hx)).mpr (hj x hx)
    have hdefined : ∀ x ∈ list, verdict anycase string x ≠ none := by
      intro x hx hv
      obtain ⟨v,hv',-⟩ := htells x hx
      exact absurd (hv.symm.trans hv') (some_ne_none v).symm
    have hsame : (list.filter fun e => verdict anycase string e == some true) =
        hits anycase string list := by
      apply filter_congr
      intro x hx
      obtain ⟨v,hv,hP⟩ := htells x hx
      rw [hv,Bool.eq_iff_iff,decide_eq_true_iff,← hP]
      simp
    rw [searchEntries_all h _ hdefined,hsame,map_append]

open Classical in
theorem hits_cons_of_hit {anycase : Bool} {string e : CString} (h : Hit anycase string e)
    (rest : List CString) :
    hits anycase string (e :: rest) = e :: hits anycase string rest := by
  exact filter_cons_of_pos (decide_eq_true h)

open Classical in
theorem hits_cons_of_not {anycase : Bool} {string e : CString} (h : ¬Hit anycase string e)
    (rest : List CString) : hits anycase string (e :: rest) = hits anycase string rest := by
  exact filter_cons_of_neg (mt of_decide_eq_true h)

open Classical in
theorem mem_hits {anycase : Bool} {string e : CString} {list : List CString}
    (h : e ∈ hits anycase string list) : Hit anycase string e :=
  of_decide_eq_true (List.mem_filter.mp h).2

theorem globs_none_cons {anycase : Bool} {list : List CString} {string e : CString}
    (h : ∀ x ∈ e :: list, Shape x) :
    Globs anycase (e :: list) string none ↔
      Judged anycase string e ∧ (Hit anycase string e ∨ Globs anycase list string none) := by
  have hspec : Tells (verdict anycase string e) (Hit anycase string e) ↔ _ :=
    verdict_tells anycase (h e (mem_cons_self ..))
  have hrest := fun x hx => h x (mem_cons_of_mem e hx)
  have hglobs : ∀ l : List CString, Globs anycase l string none ↔
      searchEntries anycase (bytes string) (l.map buffer) none =
        some ⟨l.map buffer,none,(hits anycase string l).head?.map bytes⟩ := fun _ => Iff.rfl
  rw [hglobs,searchEntries_cons (h e (mem_cons_self ..)),← hspec]
  cases hv : verdict anycase string e with
  | none =>
    constructor
    · intro hg
      cases hg
    · intro hg
      exact absurd hg.1 not_tells_none
  | some v =>
    rw [tells_some]
    by_cases hhit : Hit anycase string e
    · rw [hits_cons_of_hit hhit]
      cases v with
      | true => exact ⟨fun _ => ⟨⟨fun _ => hhit,fun _ => rfl⟩,.inl hhit⟩,fun _ => rfl⟩
      | false =>
        constructor
        · intro hg
          obtain ⟨r,hr,hbehind⟩ := Option.map_eq_some_iff.mp hg
          have hret : r.returned = some (bytes e) := congrArg Search.returned hbehind
          obtain ⟨x,hx,hvx,hex⟩ := searchEntries_returned hrest hr hret
          rw [bytes_injective hex,hvx] at hv
          exact absurd (some.inj hv) Bool.true_eq_false.mp
        · intro hg
          exact absurd (hg.1.mpr hhit) Bool.false_ne_true
    · rw [hits_cons_of_not hhit]
      cases v with
      | true =>
        constructor
        · intro hg
          have hret := congrArg Search.returned (some.inj hg)
          obtain ⟨x,hx,hex⟩ := Option.map_eq_some_iff.mp hret.symm
          rw [← bytes_injective hex] at hhit
          exact absurd (mem_hits (mem_of_mem_head? hx)) hhit
        · intro hg
          exact absurd (hg.1.mp rfl) hhit
      | false =>
        rw [hglobs]
        constructor
        · intro hg
          obtain ⟨r,hr,hbehind⟩ := Option.map_eq_some_iff.mp hg
          refine ⟨⟨fun hf => absurd hf Bool.false_ne_true,fun hh => absurd hh hhit⟩,.inr ?_⟩
          rw [hr]
          cases r
          simp only [Search.behind,Search.mk.injEq,map_cons,List.cons.injEq] at hbehind
          rw [hbehind.1.2,hbehind.2.1,hbehind.2.2]
        · intro hg
          rw [hg.2.resolve_left hhit]
          rfl

theorem globs_none_iff {anycase : Bool} {list : List CString} {string : CString}
    (h : ∀ e ∈ list, Shape e) :
    Globs anycase list string none ↔
      ∀ before e rest, list = before ++ e :: rest → (∀ x ∈ before, ¬Hit anycase string x) →
        Judged anycase string e := by
  induction list with
  | nil =>
    constructor
    · intro _ before e rest hl
      exact absurd hl.symm (append_ne_nil_of_right_ne_nil _ (cons_ne_nil e rest))
    · intro _
      rfl
  | cons x list ih =>
    rw [globs_none_cons h,ih fun y hy => h y (mem_cons_of_mem x hy)]
    constructor
    · intro hg before e rest hl hbefore
      cases before with
      | nil =>
        obtain ⟨rfl,rfl⟩ := List.cons.inj hl
        exact hg.1
      | cons y before =>
        obtain ⟨rfl,hl'⟩ := List.cons.inj hl
        have hnot := hbefore x (mem_cons_self ..)
        exact hg.2.resolve_left hnot before e rest hl' fun z hz =>
          hbefore z (mem_cons_of_mem x hz)
    · intro hj
      refine ⟨hj [] x list rfl fun y hy => absurd hy not_mem_nil,?_⟩
      by_cases hhit : Hit anycase string x
      · exact .inl hhit
      · right
        intro before e rest hl hbefore
        apply hj (x :: before) e rest (by rw [hl,cons_append])
        intro y hy
        cases List.mem_cons.mp hy with
        | inl heq => rwa [heq]
        | inr hm => exact hbefore y hm

/-- The search is glob matching just where no entry that is looked at has its parts overlap in the
subject. -/
theorem globs_iff {anycase : Bool} {list : List CString} (string : CString)
    (matchList : Option (List CString)) (h : ∀ e ∈ list, Shape e) :
    Globs anycase list string matchList ↔
      ∀ before e rest, list = before ++ e :: rest → LookedAt anycase string matchList before →
        Judged anycase string e := by
  cases matchList with
  | none =>
    rw [globs_none_iff h]
    constructor
    · intro hg before e rest hl hlooked
      exact hg before e rest hl (hlooked rfl)
    · intro hg before e rest hl hbefore
      exact hg before e rest hl fun _ => hbefore
  | some ms =>
    rw [globs_some_iff h]
    constructor
    · intro hg before e rest hl _
      exact hg e (by simp [hl])
    · intro hg e he
      obtain ⟨before,rest,hl⟩ := append_of_mem he
      exact hg before e rest hl fun hn => absurd hn (some_ne_none ms)

theorem globs_iff_hosts :
    Globs true [cstr "*.cs.wisc.edu",cstr "vulture*",cstr "*"] (cstr "VULTURE.cs.wisc.edu")
        (some []) ↔
      ∀ before e rest,
        [cstr "*.cs.wisc.edu",cstr "vulture*",cstr "*"] = before ++ e :: rest →
        LookedAt true (cstr "VULTURE.cs.wisc.edu") (some []) before →
          Judged true (cstr "VULTURE.cs.wisc.edu") e :=
  globs_iff _ _ fun e he => .inl (by revert e; decide)

/-- `aba` begins with `ab` and ends with `ba`, but is too short for both. -/
theorem short_subject_reported :
    (∀ e ∈ [cstr "ab*ba"], Shape e) ∧ ¬Globs false [cstr "ab*ba"] (cstr "aba") none := by
  refine ⟨fun e he => .inl (by revert e; decide),fun hg => ?_⟩
  have hparts : bytes (cstr "ab*ba") = [97,98] ++ asteriskChar :: [98,97] := by decide
  have hnot : ¬Hit false (cstr "aba") (cstr "ab*ba") := by
    intro h
    rw [Hit,hparts,matches_one (by decide) (by decide)] at h
    exact absurd h.2.2 (by decide)
  have hfound : (searchEntries false (bytes (cstr "aba")) ([cstr "ab*ba"].map buffer) none).map
      Search.returned = some (some (bytes (cstr "ab*ba"))) := by decide
  have hreturned : (searchEntries false (bytes (cstr "aba")) ([cstr "ab*ba"].map buffer) none).map
      Search.returned = some ((hits false (cstr "aba") [cstr "ab*ba"]).head?.map bytes) :=
    congrArg (Option.map Search.returned) hg
  rw [hits_cons_of_not hnot,hfound] at hreturned
  exact absurd (some.inj hreturned) (some_ne_none _)

end Condor.StringList
