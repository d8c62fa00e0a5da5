import Condor.UserLog.ReadUserLog

/-!
# Resynchronisation and long lines

`synchronize` compares pieces of at most 511 bytes with the delimiter, not lines. Of a line that
is longer the last piece counts, which may look like the delimiter.
-/

namespace Condor.UserLog

open List Option

def linesOf : List Byte → List (List Byte) × List Byte
  | [] => ([],[])
  | b :: s =>
    let (lines,rest) := linesOf s
    if b = newline then ([] :: lines,rest)
    else match lines with
      | [] => ([],b :: rest)
      | line :: lines => ((b :: line) :: lines,rest)

def unlines (lines : List (List Byte)) (rest : List Byte) : List Byte :=
  lines.foldr (fun line text => line ++ newline :: text) rest

def dots : List Byte := [46,46,46]

def afterDelimiter : List (List Byte) → List Byte → Option (List Byte)
  | [], _ => none
  | line :: lines, rest =>
    if line = dots then some (unlines lines rest) else afterDelimiter lines rest

/-- `synchronize` stops just behind the first whole line that is the delimiter, or finds none. -/
def StopsAtRecordEnd (s : List Byte) : Prop :=
  synchronize s = afterDelimiter (linesOf s).1 (linesOf s).2

/-- A line that `fgets` cuts just before the dots at its end. -/
def Folds (line : List Byte) : Prop :=
  ∃ k ≥ 1, line.length = 511 * k + 3 ∧ dots <:+ line

private theorem linesOf_noNewline (s : List Byte) :
    (∀ line ∈ (linesOf s).1, newline ∉ line) ∧ newline ∉ (linesOf s).2 := by
  induction s with
  | nil => simp [linesOf]
  | cons b s ih =>
    rw [linesOf]
    rcases h : linesOf s with ⟨_ | ⟨line,lines⟩,rest⟩ <;> rw [h] at ih <;>
      by_cases hb : b = newline
    · simpa [hb] using ih
    · simpa [hb,Ne.symm hb] using ih
    · simpa [hb] using ih
    · simpa [hb,Ne.symm hb] using ih

private theorem unlines_linesOf (s : List Byte) : unlines (linesOf s).1 (linesOf s).2 = s := by
  induction s with
  | nil => rfl
  | cons b s ih =>
    rw [linesOf]
    rcases h : linesOf s with ⟨_ | ⟨line,lines⟩,rest⟩ <;> rw [h] at ih <;>
      by_cases hb : b = newline <;> simp_all [unlines]

private theorem synchronizeFrom_line {piece line : List Byte} (hp : piece.length < 511)
    (hl : newline ∉ line) (s : List Byte) :
    synchronizeFrom piece (line ++ newline :: s) =
      if (piece ++ line).drop (511 * ((piece ++ line).length / 511)) = dots then some s
      else synchronize s := by
  induction line generalizing piece with
  | nil =>
    rw [nil_append,append_nil,Nat.div_eq_of_lt hp,Nat.mul_zero,drop_zero,
      synchronizeFrom,if_pos (.inl rfl)]
    refine if_congr ?_ rfl rfl
    rw [show synchDelimiter = dots ++ [newline] from rfl,append_left_inj]
  | cons b line ih =>
    obtain ⟨hb,hl⟩ := not_or.mp (mt List.mem_cons.mpr hl)
    rw [cons_append,synchronizeFrom]
    have hlen : (piece ++ [b]).length = piece.length + 1 := length_append
    have happ : piece ++ b :: line = piece ++ [b] ++ line := (append_cons ..).symm ▸ rfl
    by_cases hfull : (piece ++ [b]).length = 511
    · -- a full piece: the next one begins, and the last one stays the same
      have hne : piece ++ [b] ≠ synchDelimiter := fun h => by
        rw [h] at hfull
        exact absurd hfull (by decide)
      rw [if_pos (.inr hfull),if_neg hne,ih (by simp) hl,nil_append,happ,
        length_append,hfull,Nat.add_div_left _ (by omega),Nat.mul_succ,Nat.add_comm,
        ← drop_drop,← hfull,drop_left]
    · rw [if_neg (not_or.mpr ⟨fun h => hb h.symm,hfull⟩),ih (by omega) hl,happ]

variable {line : List Byte}

private theorem synchronize_line (hl : newline ∉ line) (s : List Byte) :
    synchronize (line ++ newline :: s) =
      if line.drop (511 * (line.length / 511)) = dots then some s else synchronize s :=
  synchronizeFrom_line (by simp) hl s

private theorem synchronizeFrom_noNewline {piece s : List Byte} (hs : newline ∉ s) :
    synchronizeFrom piece s = none := by
  induction s generalizing piece with
  | nil => rfl
  | cons b s ih =>
    obtain ⟨hb,hs⟩ := not_or.mp (mt List.mem_cons.mpr hs)
    have hne : piece ++ [b] ≠ synchDelimiter := fun h => by
      have := congrArg List.getLast? h
      rw [getLast?_concat] at this
      exact hb (some.inj this).symm
    rw [synchronizeFrom,if_neg hne,ih hs,ih hs,ite_self]

theorem lastPiece_iff (line : List Byte) :
    line.drop (511 * (line.length / 511)) = dots ↔ line = dots ∨ Folds line := by
  have hdots : dots.length = 3 := rfl
  constructor
  · intro h
    rcases Nat.eq_zero_or_pos (line.length / 511) with hk | hk
    · rw [hk] at h
      exact .inl h
    · have hlen := congrArg List.length h
      rw [length_drop,hdots] at hlen
      exact .inr ⟨_,hk,by omega,h ▸ drop_suffix _ _⟩
  · rintro (rfl | ⟨k,hk,hlen,t,rfl⟩)
    · rfl
    · rw [length_append,hdots] at hlen
      have ht : t.length = 511 * k := by omega
      rw [length_append,hdots,ht,show (511 * k + 3) / 511 = k by omega,← ht,
        drop_left]

theorem length_afterDelimiter {lines : List (List Byte)} {rest u : List Byte}
    (h : afterDelimiter lines rest = some u) : u.length < (unlines lines rest).length := by
  induction lines with
  | nil => cases h
  | cons line lines ih =>
    have hcons : (unlines (line :: lines) rest).length =
        line.length + ((unlines lines rest).length + 1) := length_append
    rw [afterDelimiter] at h
    split_ifs at h with hd
    · rw [← some.inj h]
      omega
    · have := ih h
      omega

private theorem synchronize_unlines (lines : List (List Byte)) (rest : List Byte)
    (hl : ∀ line ∈ lines, newline ∉ line) (hr : newline ∉ rest) :
    synchronize (unlines lines rest) = afterDelimiter lines rest ↔
      ∀ line ∈ lines.takeWhile (· ≠ dots), ¬ Folds line := by
  induction lines with
  | nil => simpa [unlines,afterDelimiter,synchronize] using synchronizeFrom_noNewline hr
  | cons line lines ih =>
    obtain ⟨hline,hl⟩ := List.forall_mem_cons.mp hl
    rw [show unlines (line :: lines) rest = line ++ newline :: unlines lines rest from rfl,
      synchronize_line hline,afterDelimiter]
    by_cases hd : line = dots
    · rw [if_pos hd,if_pos ((lastPiece_iff line).mpr (.inl hd)),
        takeWhile_cons_of_neg (by simp [hd])]
      simp
    rw [if_neg hd,takeWhile_cons_of_pos (by simp [hd]),forall_mem_cons]
    by_cases hf : Folds line
    · rw [if_pos ((lastPiece_iff line).mpr (.inr hf))]
      refine iff_of_false (fun h => ?_) (fun h => h.1 hf)
      exact absurd (length_afterDelimiter h.symm) (lt_irrefl _)
    · rw [if_neg fun h => ((lastPiece_iff line).mp h).elim hd hf,ih hl]
      exact (and_iff_right hf).symm

/-- Resynchronisation stops at a record end exactly if no line before the first delimiter folds. -/
theorem synchronize_stops (s : List Byte) :
    StopsAtRecordEnd s ↔ ∀ line ∈ (linesOf s).1.takeWhile (· ≠ dots), ¬ Folds line := by
  obtain ⟨hl,hr⟩ := linesOf_noNewline s
  rw [← synchronize_unlines _ _ hl hr,unlines_linesOf,StopsAtRecordEnd]

private theorem linesOf_line (hl : newline ∉ line) (s : List Byte) :
    linesOf (line ++ newline :: s) = (line :: (linesOf s).1,(linesOf s).2) := by
  induction line with
  | nil => simp [linesOf]
  | cons b line ih =>
    obtain ⟨hb,hl⟩ := not_or.mp (mt List.mem_cons.mpr hl)
    rw [cons_append,linesOf,ih hl]
    simp [Ne.symm hb]

private theorem folds_padded {pad : List Byte} (hp : pad.length = 511) : Folds (pad ++ dots) :=
  ⟨1,le_refl 1,by rw [length_append,hp]; rfl,suffix_append _ _⟩

private theorem not_stops_folded (hl : newline ∉ line) (hf : Folds line) :
    ¬ StopsAtRecordEnd (line ++ [newline]) := by
  have hne : line ≠ dots := by
    rintro rfl
    obtain ⟨k,hk,hlen,-⟩ := hf
    have : dots.length = 3 := rfl
    omega
  rw [StopsAtRecordEnd,synchronize_line hl,linesOf_line hl,
    if_pos ((lastPiece_iff line).mpr (.inr hf)),afterDelimiter,if_neg hne]
  exact some_ne_none _

/-- A line of 511 blanks and three dots is taken for the delimiter, which does not follow. -/
theorem synchronize_folded :
    ¬ StopsAtRecordEnd (List.replicate 511 32 ++ dots ++ [newline]) := by
  refine not_stops_folded ?_ (folds_padded length_replicate)
  rw [mem_append,not_or]
  exact ⟨fun h => absurd (eq_of_mem_replicate h) (by decide),by decide⟩

end Condor.UserLog
