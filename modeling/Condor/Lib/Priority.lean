import Mathlib.Data.List.Basic
import Mathlib.Order.Lattice

/-!
# Lists in order of priority

Items with their priorities, better (lower) ones first. Items of the same priority form a run:
appending puts an item behind its run and prepending in front of it.
-/

namespace Condor.Lib.Priority

open List

variable {α P : Type} [LinearOrder P]

def Sorted (q : List (α × P)) : Prop := q.Pairwise fun x y => x.2 ≤ y.2

def append (x : α × P) (q : List (α × P)) : List (α × P) :=
  q.filter (fun y => y.2 ≤ x.2) ++ x :: q.filter fun y => x.2 < y.2

def prepend (x : α × P) (q : List (α × P)) : List (α × P) :=
  q.filter (fun y => y.2 < x.2) ++ x :: q.filter fun y => x.2 ≤ y.2

def run (p : P) (q : List (α × P)) : List (α × P) := q.filter fun y => y.2 = p

variable {x : α × P} {q q' : List (α × P)}

theorem Sorted.filter (h : Sorted q) (f : α × P → Bool) : Sorted (q.filter f) :=
  List.Pairwise.filter f h

theorem sorted_cons : Sorted (x :: q) ↔ (∀ y ∈ q, x.2 ≤ y.2) ∧ Sorted q := pairwise_cons

theorem sorted_append (h : Sorted q) (x : α × P) : Sorted (append x q) := by
  refine List.pairwise_append.mpr ⟨h.filter _,?_,?_⟩
  · refine sorted_cons.mpr ⟨fun y hy => ?_,h.filter _⟩
    exact (of_decide_eq_true (List.mem_filter.mp hy).2).le
  · intro y hy z hz
    have hyx : y.2 ≤ x.2 := of_decide_eq_true (List.mem_filter.mp hy).2
    rcases List.mem_cons.mp hz with rfl | hz
    · exact hyx
    · exact hyx.trans (of_decide_eq_true (List.mem_filter.mp hz).2).le

theorem sorted_prepend (h : Sorted q) (x : α × P) : Sorted (prepend x q) := by
  refine List.pairwise_append.mpr ⟨h.filter _,?_,?_⟩
  · refine sorted_cons.mpr ⟨fun y hy => ?_,h.filter _⟩
    exact of_decide_eq_true (List.mem_filter.mp hy).2
  · intro y hy z hz
    have hyx : y.2 < x.2 := of_decide_eq_true (List.mem_filter.mp hy).2
    rcases List.mem_cons.mp hz with rfl | hz
    · exact hyx.le
    · exact hyx.le.trans (of_decide_eq_true (List.mem_filter.mp hz).2)

theorem Sorted.ext (h : Sorted q) (h' : Sorted q') (hrun : ∀ p, run p q = run p q') : q = q' := by
  induction q generalizing q' with
  | nil =>
    cases q' with
    | nil => rfl
    | cons y q' =>
      have hy := hrun y.2
      simp [run] at hy
  | cons x q ih =>
    obtain ⟨hx,hq⟩ := sorted_cons.mp h
    cases q' with
    | nil =>
      have hnone := hrun x.2
      simp [run] at hnone
    | cons y q' =>
      obtain ⟨hy,hq'⟩ := sorted_cons.mp h'
      have hmem {z : α × P} {l l' : List (α × P)} (hl : ∀ p, run p l = run p l')
          (hz : z ∈ l) : z ∈ l' := by
        have hzrun : z ∈ run z.2 l := List.mem_filter.mpr ⟨hz,by simp⟩
        rw [hl] at hzrun
        exact (List.mem_filter.mp hzrun).1
      -- the heads have the best priority of both lists
      have hle {a b : α × P} {l : List (α × P)} (hl : ∀ z ∈ l, a.2 ≤ z.2)
          (hb : b ∈ a :: l) : a.2 ≤ b.2 := by
        rcases List.mem_cons.mp hb with rfl | hb
        · exact le_refl _
        · exact hl b hb
      have hprio : x.2 = y.2 := le_antisymm
        (hle hx (hmem (fun p => (hrun p).symm) mem_cons_self))
        (hle hy (hmem hrun mem_cons_self))
      have hhead := hrun x.2
      rw [run,run,filter_cons_of_pos (by simp),filter_cons_of_pos (by simp [hprio])]
        at hhead
      obtain rfl : x = y := (List.cons.inj hhead).1
      refine congrArg (x :: ·) (ih hq hq' fun p => ?_)
      have hp := hrun p
      rw [run,run,filter_cons,filter_cons] at hp
      split at hp
      · exact (List.cons.inj hp).2
      · exact hp

theorem mem_prepend {y : α × P} : y ∈ prepend x q ↔ y = x ∨ y ∈ q := by
  rw [prepend,mem_append,mem_cons,mem_filter,mem_filter]
  constructor
  · rintro (⟨h,-⟩ | h | ⟨h,-⟩)
    · exact .inr h
    · exact .inl h
    · exact .inr h
  · intro h
    rcases h with h | h
    · exact .inr (.inl h)
    · rcases lt_or_ge y.2 x.2 with hlt | hge
      · exact .inl ⟨h,by simpa using hlt⟩
      · exact .inr (.inr ⟨h,by simpa using hge⟩)

theorem mem_foldl_prepend {items : List (α × P)} {y : α × P} :
    y ∈ items.foldl (fun q x => prepend x q) q ↔ y ∈ items ∨ y ∈ q := by
  induction items generalizing q with
  | nil => simp
  | cons x items ih =>
    rw [foldl_cons,ih,mem_prepend,mem_cons,or_left_comm,← or_assoc]

theorem run_prepend (p : P) (x : α × P) (q : List (α × P)) :
    run p (prepend x q) = if x.2 = p then x :: run p q else run p q := by
  rw [run,prepend,filter_append,filter_cons,filter_filter,filter_filter]
  by_cases hx : x.2 = p
  · subst hx
    have hnone : q.filter (fun y => decide (y.2 = x.2) && decide (y.2 < x.2)) = [] := by
      refine List.filter_eq_nil_iff.mpr fun y _ => ?_
      simp only [Bool.and_eq_true,decide_eq_true_eq,not_and,not_lt]
      exact fun h => h.ge
    have hall : q.filter (fun y => decide (y.2 = x.2) && decide (x.2 ≤ y.2)) = run x.2 q := by
      refine filter_congr fun y _ => ?_
      by_cases hy : y.2 = x.2 <;> simp [hy]
    rw [hnone,hall]
    simp
  · rw [if_neg (by simpa using hx),if_neg hx]
    rcases lt_or_gt_of_ne hx with hlt | hgt
    · have hnone : q.filter (fun y => decide (y.2 = p) && decide (y.2 < x.2)) = [] := by
        refine List.filter_eq_nil_iff.mpr fun y _ => ?_
        simp only [Bool.and_eq_true,decide_eq_true_eq,not_and,not_lt]
        exact fun h => h ▸ hlt.le
      have hall : q.filter (fun y => decide (y.2 = p) && decide (x.2 ≤ y.2)) = run p q := by
        refine filter_congr fun y _ => ?_
        by_cases hy : y.2 = p
        · simp [hy,hlt.le]
        · simp [hy]
      rw [hnone,hall,nil_append]
    · have hnone : q.filter (fun y => decide (y.2 = p) && decide (x.2 ≤ y.2)) = [] := by
        refine List.filter_eq_nil_iff.mpr fun y _ => ?_
        simp only [Bool.and_eq_true,decide_eq_true_eq,not_and,not_le]
        exact fun h => h ▸ hgt
      have hall : q.filter (fun y => decide (y.2 = p) && decide (y.2 < x.2)) = run p q := by
        refine filter_congr fun y _ => ?_
        by_cases hy : y.2 = p
        · simp [hy,hgt]
        · simp [hy]
      rw [hnone,hall,append_nil]

theorem run_foldl_prepend (p : P) (items q : List (α × P)) :
    run p (items.foldl (fun q x => prepend x q) q) = (run p items).reverse ++ run p q := by
  induction items generalizing q with
  | nil => rfl
  | cons x items ih =>
    rw [foldl_cons,ih,run_prepend]
    by_cases hx : x.2 = p
    · rw [if_pos hx,run,run,run,filter_cons_of_pos (by simpa using hx),reverse_cons,
        append_assoc]
      rfl
    · rw [if_neg hx,run,run,run,filter_cons_of_neg (by simpa using hx)]

theorem sorted_foldl_prepend (items : List (α × P)) (h : Sorted q) :
    Sorted (items.foldl (fun q x => prepend x q) q) := by
  induction items generalizing q with
  | nil => exact h
  | cons x items ih => exact ih (sorted_prepend h x)

theorem foldl_prepend_eq {items rest : List (α × P)} (h : Sorted (items ++ rest)) :
    (items.foldl (fun q x => prepend x q) []).foldl (fun q x => prepend x q) rest =
      items ++ rest := by
  have hrest : Sorted rest := (List.pairwise_append.mp h).2.1
  refine (sorted_foldl_prepend _ hrest).ext h fun p => ?_
  have hnil : run p ([] : List (α × P)) = [] := rfl
  rw [run_foldl_prepend,run_foldl_prepend,hnil,append_nil,reverse_reverse]
  exact (filter_append ..).symm

end Condor.Lib.Priority
