import Condor.ClassAds.Unparse
import Condor.ClassAds.Termination

/-!
# Strings survive the old syntax

The conversion doubles a backslash unless it stands before a quote that is not at the end of the
line.
-/

namespace Condor.ClassAds

open List

open Lib (Watch)

variable {s str : List Char} {c : Char}

def Doubled (str : List Char) : Prop := str[0]? = some '"' → isStringEnd str 1 = true
deriving Decidable

theorem doubled_iff (str : List Char) :
    str[0]? ≠ some '"' ∨ (str[0]? = some '"' ∧ isStringEnd str 1) ↔ Doubled str := by
  unfold Doubled
  constructor
  · rintro (h | ⟨-,h⟩) hq
    · exact absurd hq h
    · exact h
  · intro h
    by_cases hq : str[0]? = some '"'
    · exact .inr ⟨hq,h hq⟩
    · exact .inl hq

def converted : List Char → List Char
  | [] => []
  | c :: str => (if c = '\\' ∧ Doubled str then ['\\','\\'] else [c]) ++ converted str

private theorem converted_cons_of_ne (h : c ≠ '\\') (str : List Char) :
    converted (c :: str) = c :: converted str := by
  simp [converted,h]

theorem converted_plain_append {plain : List Char} (h : ∀ c ∈ plain, c ≠ '\\')
    (str : List Char) : converted (plain ++ str) = plain ++ converted str := by
  induction plain with
  | nil => rfl
  | cons c plain ih =>
    rw [cons_append,converted_cons_of_ne (h c mem_cons_self),
      ih fun d hd => h d (mem_cons_of_mem c hd)]
    rfl

private theorem converted_backslash (str : List Char) :
    converted ('\\' :: str) =
      (if Doubled str then ['\\','\\'] else ['\\']) ++ converted str := by
  simp [converted]

private theorem convertEscapingInto_plain {buffer : List Char} (h : str.dropWhile (· ≠ '\\') = []) :
    convertEscapingInto str buffer = buffer ++ str.takeWhile (· ≠ '\\') := by
  rw [convertEscapingInto]
  split
  · rfl
  · rename_i hd
    rw [h] at hd
    cases hd

private theorem convertEscapingInto_backslash {buffer rest : List Char}
    (h : str.dropWhile (· ≠ '\\') = c :: rest) :
    convertEscapingInto str buffer =
      convertEscapingInto rest (buffer ++ str.takeWhile (· ≠ '\\') ++
        if Doubled rest then ['\\','\\'] else ['\\']) := by
  rw [convertEscapingInto]
  split
  · rename_i hd
    rw [h] at hd
    cases hd
  · rename_i hd
    rw [h] at hd
    cases hd
    simp only [doubled_iff]
    split <;> simp

theorem convertEscapingInto_eq (str buffer : List Char) :
    convertEscapingInto str buffer = buffer ++ converted str := by
  -- by induction on the length: a round of the loop goes on behind a backslash
  induction hn : str.length using Nat.strongRecOn generalizing str buffer with
  | ind n ih =>
    have hplain : ∀ c ∈ str.takeWhile (· ≠ '\\'), c ≠ '\\' := by
      intro c hc
      simpa using List.all_eq_true.mp all_takeWhile c hc
    have hstr := takeWhile_append_dropWhile (p := (· ≠ '\\')) (l := str)
    cases hdrop : str.dropWhile (· ≠ '\\') with
    | nil =>
      rw [convertEscapingInto_plain hdrop]
      conv => rhs; rw [← hstr,converted_plain_append hplain,hdrop]
      simp [converted]
    | cons c rest =>
      have hc : c = '\\' := by
        have hhead := head?_dropWhile_not (· ≠ '\\') str
        rw [hdrop] at hhead
        simpa using hhead
      have hlt : rest.length < n := by
        rw [← hn,← hstr,hdrop,length_append,length_cons]
        omega
      rw [convertEscapingInto_backslash hdrop,ih _ hlt _ _ rfl]
      conv => rhs; rw [← hstr,converted_plain_append hplain,hdrop,hc,converted_backslash]
      simp

theorem insertChars_eq (str newAdStr : List Char) :
    insertChars str newAdStr = newAdStr ++ converted str := by
  induction str generalizing newAdStr with
  | nil => simp [insertChars,converted]
  | cons c str ih =>
    have hend : isStringEnd (c :: str) 2 = isStringEnd str 1 := rfl
    have hnext : (c :: str)[1]? = str[0]? := rfl
    rw [insertChars,ih,converted,hend,hnext]
    simp only [doubled_iff]
    by_cases hc : c = '\\'
    · by_cases hd : Doubled str
      · simp [hc,hd]
      · simp [hc,hd]
    · simp [hc]

def oldBody (s : List Char) : List Char := s.flatMap fun c => if c = '"' then ['\\','"'] else [c]

def newBody (s : List Char) : List Char :=
  s.flatMap fun c => if c = '\\' ∨ c = '"' then ['\\',c] else [c]

private theorem unparseChar_old {u : ClassAdUnParser} (hold : u.oldClassAd = true)
    (hxml : u.xmlUnparse = false) (hdelim : u.delimiter = '"') (c : Char) :
    u.unparseChar c = if c = '"' then ['\\','"'] else [c] := by
  rw [ClassAdUnParser.unparseChar,hdelim,hold,hxml]
  rfl

private theorem exprTreeToString_string (u : ClassAdUnParser) (s : List Char)
    (factor : NumberFactor) :
    u.exprTreeToString (.string s) factor = '"' :: oldBody s ++ ['"'] := by
  have hchar : { u with oldClassAd := true, xmlUnparse := false, delimiter := '"' }.unparseChar =
      fun c => if c = '"' then ['\\','"'] else [c] :=
    funext fun c => unparseChar_old rfl rfl rfl c
  change '"' :: s.flatMap _ ++ ['"'] = _
  rw [hchar]
  rfl

def OneLine (s : List Char) : Prop := '\n' ∉ s ∧ '\r' ∉ s

theorem OneLine.tail (h : OneLine (c :: s)) : OneLine s :=
  ⟨fun hs => h.1 (mem_cons_of_mem c hs),fun hs => h.2 (mem_cons_of_mem c hs)⟩

private theorem OneLine.not_end (h : OneLine s) : isStringEnd
    ('"' :: (oldBody s ++ ['"'])) 1 = false := by
  cases s with
  | nil => rfl
  | cons c s =>
    have hn : c ≠ '\n' := fun hc => h.1 (by simp [hc])
    have hr : c ≠ '\r' := fun hc => h.2 (by simp [hc])
    by_cases hq : c = '"'
    · subst c
      simp [oldBody,isStringEnd]
    · simp [oldBody,isStringEnd,hq,hn,hr]

private theorem doubled_oldBody (s : List Char) : Doubled (oldBody s ++ ['"']) := by
  cases s with
  | nil => intro _; rfl
  | cons c s =>
    intro hq
    by_cases hc : c = '"'
    · simp [oldBody,hc] at hq
    · simp [oldBody,hc] at hq

private theorem converted_oldBody (h : OneLine s) :
    converted (oldBody s ++ ['"']) = newBody s ++ ['"'] := by
  induction s with
  | nil => rfl
  | cons c s ih =>
    have htail := ih h.tail
    by_cases hq : c = '"'
    · subst c
      have hnot : ¬ Doubled ('"' :: (oldBody s ++ ['"'])) := by
        intro hd
        have hend := hd rfl
        rw [h.tail.not_end] at hend
        cases hend
      have hbody : oldBody ('"' :: s) ++ ['"'] = '\\' :: '"' :: (oldBody s ++ ['"']) := rfl
      rw [hbody,converted_backslash,if_neg hnot,converted_cons_of_ne (by decide),htail]
      rfl
    · have hbody : oldBody (c :: s) ++ ['"'] = c :: (oldBody s ++ ['"']) := by
        simp [oldBody,hq]
      by_cases hb : c = '\\'
      · subst c
        rw [hbody,converted_backslash,if_pos (doubled_oldBody s),htail]
        rfl
      · rw [hbody,converted_cons_of_ne hb,htail]
        simp [newBody,hb,hq]

theorem convertEscapingOldToNew_string (u : ClassAdUnParser) (h : OneLine s)
    (factor : NumberFactor) :
    convertEscapingOldToNew (u.exprTreeToString (.string s) factor) =
      '"' :: newBody s ++ ['"'] := by
  rw [exprTreeToString_string,convertEscapingOldToNew,convertEscapingInto_eq,nil_append,
    cons_append,converted_cons_of_ne (by decide),converted_oldBody h,cons_append]

theorem convertEscapes_cons (h : c ≠ '\\') (cs : List Char) :
    convertEscapes (c :: cs) = (convertEscapes cs).map (c :: ·) := by
  rw [convertEscapes.eq_def]
  exact if_pos h

private theorem convertEscapes_escape {x : Char} (h : escapeOf c = some x) (cs : List Char) :
    convertEscapes ('\\' :: c :: cs) = (convertEscapes cs).map (x :: ·) := by
  rw [convertEscapes.eq_def]
  simp [h]

theorem convertEscapes_newBody (s : List Char) : convertEscapes (newBody s) = some s := by
  induction s with
  | nil => rfl
  | cons c s ih =>
    by_cases hq : c = '\\' ∨ c = '"'
    · have hbody : newBody (c :: s) = '\\' :: c :: newBody s := by simp [newBody,hq]
      have hescape : escapeOf c = some c := by
        rcases hq with rfl | rfl
        · rfl
        · rfl
      rw [hbody,convertEscapes_escape hescape,ih]
      rfl
    · have hbody : newBody (c :: s) = c :: newBody s := by simp [newBody,hq]
      rw [hbody,convertEscapes_cons fun hc => hq (.inl hc),ih]
      rfl

end Condor.ClassAds
