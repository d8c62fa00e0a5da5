import Condor.Config.Getline

/-!
# Logical lines

What the lines of a configuration file are: the file is split at the newlines, each physical line
is trimmed, and one that ends in a backslash is joined with the next one.
-/

namespace Condor.Config

open List

def EndsInBackslash (l : List Byte) : Prop := l.getLast? = some backslash
deriving Decidable

def lone : List Byte := [backslash]

def joinLines : List (List Byte) → List (List Byte)
  | [] => []
  | l :: ls =>
    if EndsInBackslash l then
      match joinLines ls with
      | [] => [l.dropLast]
      | m :: ms => (l.dropLast ++ m) :: ms
    else l :: joinLines ls

/-- The trimmed physical lines, where the last one counts also without a newline. -/
def physicalLines (ls : List (List Byte)) (last : List Byte) : List (List Byte) :=
  ls.map trim ++ if last = [] then [] else [trim last]

def logicalLines (file : List Byte) : List (List Byte) :=
  joinLines (physicalLines (splitLines file).1 (splitLines file).2)

def behind (opened : Bool) (text : List Byte) (ls : List (List Byte)) : List (List Byte) :=
  match ls with
  | [] => if opened then [text] else []
  | m :: ms => (text ++ m) :: ms

theorem endsInBackslash_append {t u : List Byte} (hu : u ≠ []) :
    EndsInBackslash (t ++ u) ↔ EndsInBackslash u := by
  unfold EndsInBackslash
  rw [getLast?_append_of_ne_nil _ hu]

theorem not_endsInBackslash_nil : ¬EndsInBackslash [] := by
  simp [EndsInBackslash]

theorem EndsInBackslash.ne_nil {l : List Byte} (h : EndsInBackslash l) : l ≠ [] := by
  rintro rfl
  exact not_endsInBackslash_nil h

private theorem EndsInBackslash.eq_lone {l : List Byte} (h : EndsInBackslash l)
    (hl : l.dropLast = []) :
    l = lone := by
  have := dropLast_append_getLast? backslash h
  rw [← this,hl]
  rfl

theorem behind_joinLines_cons (opened : Bool) (text l : List Byte) (ls : List (List Byte)) :
    behind opened text (joinLines (l :: ls)) =
      if EndsInBackslash l then behind true (text ++ l.dropLast) (joinLines ls)
      else (text ++ l) :: behind false [] (joinLines ls) := by
  rw [joinLines]
  split
  · cases joinLines ls <;> simp [behind]
  · cases joinLines ls <;> simp [behind]

theorem joined_cons (text l last : List Byte) (ls : List (List Byte)) :
    joined text (l :: ls) last =
      if EndsInBackslash (text ++ trim l) then joined (text ++ trim l).dropLast ls last
      else (text ++ trim l) :: joined [] ls last := rfl

theorem length_joinLines_cons (l : List Byte) (ls : List (List Byte)) :
    (joinLines (l :: ls)).length =
      if EndsInBackslash l then max 1 (joinLines ls).length else (joinLines ls).length + 1 := by
  rw [joinLines]
  split
  · cases joinLines ls <;> simp
  · simp

theorem length_joined_le (text last : List Byte) (ls : List (List Byte)) :
    (joined text ls last).length ≤ max 1 (joinLines (physicalLines ls last)).length ∧
      (text = [] → (joined text ls last).length ≤ (joinLines (physicalLines ls last)).length) := by
  induction ls generalizing text with
  | nil =>
    by_cases hlast : last = []
    · simp only [joined,physicalLines,hlast,append_nil,map_nil]
      split <;> simp_all
    · have hone : (joinLines [trim last]).length = 1 := by
        rw [length_joinLines_cons]
        split <;> rfl
      have hne : text ++ last ≠ [] := by simp [hlast]
      simp [joined,physicalLines,hlast,hone]
  | cons l ls ih =>
    have hphys : physicalLines (l :: ls) last = trim l :: physicalLines ls last := by
      simp [physicalLines]
    rw [joined,hphys,length_joinLines_cons]
    have hnext := (ih []).2 rfl
    split
    next h =>
      have hopen := (ih (text ++ trim l).dropLast).1
      by_cases ht : trim l = []
      · rw [if_neg (by simp [ht,not_endsInBackslash_nil])]
        refine ⟨by omega,?_⟩
        rintro rfl
        rw [ht] at h
        exact absurd h not_endsInBackslash_nil
      · rw [if_pos ((endsInBackslash_append ht).mp h)]
        exact ⟨by omega,fun _ => hopen⟩
    next h =>
      rw [if_neg]
      · simp only [length_cons]
        omega
      · intro ht
        exact h ((endsInBackslash_append ht.ne_nil).mpr ht)

variable {ls : List (List Byte)}

private theorem joined_ne_of_missed {text last : List Byte} (h : EndsInBackslash text) :
    joined text.dropLast ls last ≠ text :: joinLines (physicalLines ls last) := by
  intro heq
  have hlen := (length_joined_le text.dropLast last ls).1
  rw [heq,length_cons] at hlen
  have hnil : joinLines (physicalLines ls last) = [] := List.length_eq_zero_iff.mp (by omega)
  have hphys : physicalLines ls last = [] := by
    match hp : physicalLines ls last with
    | [] => rfl
    | l :: rest =>
      rw [hp] at hnil
      have := length_joinLines_cons l rest
      rw [hnil] at this
      simp only [length_nil] at this
      split at this <;> omega
  have hempty : ls = [] ∧ last = [] := by
    unfold physicalLines at hphys
    simp only [append_eq_nil_iff,map_eq_nil_iff] at hphys
    refine ⟨hphys.1,?_⟩
    by_contra hne
    simp [hne] at hphys
  rw [hnil,hempty.1,hempty.2,joined] at heq
  have hpos := List.length_pos_iff.mpr h.ne_nil
  split at heq
  · simp at heq
  · have := congrArg List.length (List.cons.inj heq).1
    simp at this
    omega

/-- A last line without a newline that is as trimmed, and does not ask for another one. -/
def Complete (last : List Byte) : Prop := trim last = last ∧ ¬EndsInBackslash last

def Follows (last : List Byte) : Bool → List Byte → List (List Byte) → Prop
  | opened, text, [] => if last = [] then opened = true → text ≠ [] else Complete last
  | _, text, l :: ls =>
    (l = [] → ¬EndsInBackslash text) ∧
      if EndsInBackslash l then Follows last true (text ++ l.dropLast) ls
      else Follows last false [] ls

variable {last text : List Byte}

theorem joined_last_iff {opened : Bool} (hlast : last ≠ []) :
    joined text [] last = behind opened text (joinLines [trim last]) ↔ Complete last := by
  rw [behind_joinLines_cons]
  have hlen := length_trim_le last
  have hne : text ++ last ≠ [] := by simp [hlast]
  rw [joined,if_neg hne]
  unfold Complete
  split
  next h =>
    -- the reader keeps the backslash
    simp only [joinLines,behind,if_true,List.cons.injEq,append_cancel_left_eq,and_true]
    constructor
    · intro heq
      have hshort := congrArg List.length heq
      have hpos := List.length_pos_iff.mpr hlast
      rw [length_dropLast] at hshort
      omega
    · intro hc
      rw [hc.1] at h
      exact absurd h hc.2
  next h =>
    simp only [joinLines,behind,Bool.false_eq_true,if_false,List.cons.injEq,
      append_cancel_left_eq,and_true]
    constructor
    · intro heq
      rw [← heq] at h
      exact ⟨heq.symm,h⟩
    · intro hc
      exact hc.1.symm

theorem joined_iff {opened : Bool} (ht : opened = false → text = []) :
    joined text ls last = behind opened text (joinLines (physicalLines ls last)) ↔
      Follows last opened text (ls.map trim) := by
  induction ls generalizing text opened with
  | nil =>
    rw [map_nil,Follows]
    split
    next hlast =>
      cases opened with
      | false =>
        obtain rfl := ht rfl
        simp [joined,hlast,physicalLines,joinLines,behind]
      | true =>
        simp only [joined,hlast,physicalLines,joinLines,behind,append_nil,map_nil,
          if_true]
        split <;> simp_all
    next hlast =>
      simpa [physicalLines,hlast] using @joined_last_iff _ _ opened hlast
  | cons l ls ih =>
    have hphys : physicalLines (l :: ls) last = trim l :: physicalLines ls last := by
      simp [physicalLines]
    rw [hphys,behind_joinLines_cons,map_cons,Follows,joined_cons]
    have hfresh : behind false [] (joinLines (physicalLines ls last)) =
        joinLines (physicalLines ls last) := by
      unfold behind
      split <;> simp_all
    by_cases hl : trim l = []
    · have hnot : ¬EndsInBackslash (trim l) := by
        rw [hl]
        exact not_endsInBackslash_nil
      rw [if_neg hnot,if_neg hnot]
      simp only [hl,append_nil,true_implies]
      by_cases hend : EndsInBackslash text
      · -- a blank line does not stop the joining
        rw [if_pos hend,hfresh]
        simp [joined_ne_of_missed hend,hend]
      · rw [if_neg hend]
        simpa [hend] using @ih [] false (fun _ => rfl)
    · have hiff := endsInBackslash_append (t := text) hl
      simp only [hl,false_implies,true_and]
      by_cases hend : EndsInBackslash (trim l)
      · have hdrop : (text ++ trim l).dropLast = text ++ (trim l).dropLast :=
          dropLast_append_of_ne_nil hl
        simp only [if_pos hend]
        rw [if_pos (hiff.mpr hend),hdrop]
        exact ih (by simp)
      · simp only [if_neg hend]
        rw [if_neg (mt hiff.mp hend)]
        simpa using @ih [] false (fun _ => rfl)

/-- Lone backslashes at the end of the file go on with a text, if there are any: the last line
before them ends in a backslash. -/
def TextAtEnd (ls : List (List Byte)) : Prop :=
  ls.getLast? = some lone → ∃ l, (ls.rdropWhile (· = lone)).getLast? = some l ∧ EndsInBackslash l

/-- No blank line comes after a line that ends in two backslashes, or after such a line and lone
backslashes. -/
def NoBlankBehind (ls : List (List Byte)) : Prop :=
  ∀ l rest, (l :: rest) <:+ ls → EndsInBackslash l → EndsInBackslash l.dropLast →
    (rest.dropWhile (· = lone)).head? ≠ some []

/-- `TextAtEnd` for lines behind a text. -/
def TextBehind (opened : Bool) (text : List Byte) (ls : List (List Byte)) : Prop :=
  if ls = [] then opened = true → text ≠ []
  else ls.getLast? = some lone →
    (∃ l, (ls.rdropWhile (· = lone)).getLast? = some l ∧ EndsInBackslash l) ∨
      (ls.rdropWhile (· = lone) = [] ∧ text ≠ [])

theorem rdropWhile_cons {α : Type} (p : α → Bool) (a : α) (l : List α) :
    (a :: l).rdropWhile p =
      if l.rdropWhile p = [] then (if p a then [] else [a]) else a :: l.rdropWhile p := by
  unfold List.rdropWhile
  rw [reverse_cons,List.dropWhile_append]
  simp only [List.isEmpty_iff,reverse_eq_nil_iff]
  by_cases h : l.reverse.dropWhile p = []
  · cases hp : p a <;> simp only [if_pos h] <;> simp [hp]
  · simp [h]

theorem textBehind_cons (opened : Bool) (text l : List Byte) (ls : List (List Byte)) :
    TextBehind opened text (l :: ls) ↔
      if EndsInBackslash l then TextBehind true (text ++ l.dropLast) ls
      else TextBehind false [] ls := by
  have hlone : EndsInBackslash lone := rfl
  have hdrop : lone.dropLast = [] := rfl
  unfold TextBehind
  rw [if_neg (cons_ne_nil l ls),rdropWhile_cons]
  by_cases hls : ls = []
  · by_cases hl : l = lone
    · simp [hls,hl,hlone,hdrop,List.rdropWhile]
    · have hne : EndsInBackslash l → l.dropLast ≠ [] := fun h h' => hl (h.eq_lone h')
      simp [hls,hl]
      tauto
  · rw [getLast?_cons_of_ne_nil hls]
    by_cases hr : ls.rdropWhile (· = lone) = []
    · by_cases hl : l = lone
      · simp [hls,hr,hl,hlone,hdrop]
      · have hne : EndsInBackslash l → l.dropLast ≠ [] := fun h h' => hl (h.eq_lone h')
        by_cases hend : EndsInBackslash l
        · simp [hls,hr,hl,hend,hne hend]
        · simp [hls,hr,hl,hend]
    · simp [hls,hr,getLast?_cons_of_ne_nil hr]

theorem noBlankBehind_cons (l : List Byte) (ls : List (List Byte)) :
    NoBlankBehind (l :: ls) ↔
      (EndsInBackslash l → EndsInBackslash l.dropLast →
        (ls.dropWhile (· = lone)).head? ≠ some []) ∧ NoBlankBehind ls := by
  unfold NoBlankBehind
  constructor
  · intro h
    exact ⟨h l ls (suffix_refl _),
      fun m rest hrest => h m rest (hrest.trans (suffix_cons l ls))⟩
  · intro h m rest hrest
    rcases List.suffix_cons_iff.mp hrest with heq | hrest
    · obtain ⟨rfl,rfl⟩ := List.cons.inj heq
      exact h.1
    · exact h.2 m rest hrest

theorem follows_iff {opened : Bool} (ls : List (List Byte)) :
    Follows last opened text ls ↔
      (last ≠ [] → Complete last) ∧ (last = [] → TextBehind opened text ls) ∧
        (EndsInBackslash text → (ls.dropWhile (· = lone)).head? ≠ some []) ∧
          NoBlankBehind ls := by
  induction ls generalizing opened text with
  | nil =>
    by_cases hlast : last = [] <;> simp [Follows,TextBehind,NoBlankBehind,hlast]
  | cons l ls ih =>
    have hlone : EndsInBackslash lone := rfl
    rw [Follows,textBehind_cons,noBlankBehind_cons,dropWhile_cons]
    by_cases hnil : l = []
    · simp [hnil,not_endsInBackslash_nil,ih,lone]
      tauto
    · by_cases hl : l = lone
      · have hdrop : lone.dropLast = [] := rfl
        have hnot : ¬lone = [] := hlone.ne_nil
        simp [hl,hlone,hdrop,hnot,not_endsInBackslash_nil,ih]
      · by_cases hend : EndsInBackslash l
        · have hne : l.dropLast ≠ [] := fun h => hl (hend.eq_lone h)
          simp [hnil,hl,hend,ih,endsInBackslash_append hne]
        · simp [hnil,hl,hend,ih,not_endsInBackslash_nil]

structure Regular (ls : List (List Byte)) (last : List Byte) : Prop where
  complete : last ≠ [] → Complete last
  textAtEnd : last = [] → TextAtEnd ls
  noBlankBehind : NoBlankBehind ls

theorem regular_iff {last : List Byte} :
    Regular ls last ↔ Follows last false [] ls := by
  have htext : TextBehind false [] ls ↔ TextAtEnd ls := by
    unfold TextBehind TextAtEnd
    split
    next h => simp [h]
    next h => simp
  rw [follows_iff,htext]
  constructor
  · intro h
    exact ⟨h.complete,h.textAtEnd,fun he => absurd he not_endsInBackslash_nil,h.noBlankBehind⟩
  · intro h
    exact ⟨h.1,h.2.1,h.2.2.2⟩

/-- The calls return the logical lines of the file exactly if its physical lines are regular. -/
theorem readLines_logicalLines_iff {r : LineReader} (heof : r.eof = false)
    (hzero : ∀ b ∈ r.rest, b ≠ 0) (requestedBufsize : Nat) :
    ∃ lines, readLines requestedBufsize (r.rest.length + 1) r = some lines ∧
      (lines = logicalLines r.rest ↔
        Regular ((splitLines r.rest).1.map trim) (splitLines r.rest).2) := by
  have hr : r.Sound := ⟨by simp [heof],hzero⟩
  refine ⟨_,readLines_eq hr (Nat.lt_succ_self _) _,?_⟩
  rw [regular_iff,← joined_iff (fun _ => rfl)]
  have hfresh : ∀ ls, behind false [] ls = ls := by
    intro ls
    cases ls <;> simp [behind]
  rw [hfresh]
  rfl

/-- "a" and a backslash, and "b" on the next line. -/
theorem readLines_logicalLines_two :
    ∃ lines, readLines 128 6 { rest := [97,92,10,98,10] } = some lines ∧
      (lines = logicalLines [97,92,10,98,10] ↔ Regular [[97,92],[98]] []) :=
  readLines_logicalLines_iff (r := { rest := [97,92,10,98,10] }) rfl (by simp) 128

/-- Without a newline behind it, a blank stays at the end of a line. -/
theorem readLines_blank_stays :
    ∃ lines, readLines 128 3 { rest := [97,32] } = some lines ∧
      lines ≠ logicalLines [97,32] :=
  ⟨_,readLines_eq (r := { rest := [97,32] }) ⟨by simp,by simp⟩ (by decide) 128,
    by decide⟩

end Condor.Config
