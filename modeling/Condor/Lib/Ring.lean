import Mathlib.Data.List.Basic

/-!
# Ring buffers

The first `max` of some cells form a ring with a head. The ring holds a list when the cell `i`
places behind the head holds the element `i` of the list.
-/

namespace Condor.Lib.Ring

open List

variable {α : Type}

/-- The place `i` steps behind the head. -/
def behind (max head i : Nat) : Nat := if i ≤ head then head - i else head + max - i

def ahead (max head : Nat) : Nat := if head + 1 < max then head + 1 else 0

theorem behind_eq_mod {max head i : Nat} (hhead : head < max) (hi : i ≤ max) :
    behind max head i = (head + max - i) % max := by
  unfold behind
  split
  next hle =>
    rw [show head + max - i = head - i + max by omega,Nat.add_mod_right,
      Nat.mod_eq_of_lt (by omega)]
  next hlt => exact (Nat.mod_eq_of_lt (by omega)).symm

theorem ahead_lt {max : Nat} (head : Nat) (hmax : 0 < max) : ahead max head < max := by
  unfold ahead
  split <;> omega

theorem ahead_eq_mod {max head : Nat} (hhead : head < max) :
    ahead max head = (head + 1) % max := by
  unfold ahead
  split
  next hlt => exact (Nat.mod_eq_of_lt hlt).symm
  next hle => rw [show head + 1 = max by omega,Nat.mod_self]

theorem behind_ahead {max head i : Nat} (hhead : head < max) (hi : i + 1 < max) :
    behind max (ahead max head) (i + 1) = behind max head i := by
  unfold behind ahead
  split <;> split <;> split <;> omega

theorem behind_ne {max head i j : Nat} (hij : i < j) (hj : j < max) :
    behind max head i ≠ behind max head j := by
  unfold behind
  split <;> split <;> omega

@[simp]
theorem behind_zero (max head : Nat) : behind max head 0 = head := by
  simp [behind]

theorem behind_last {max head : Nat} (hhead : head < max) :
    behind max head (max - 1) = ahead max head := by
  unfold behind ahead
  split <;> split <;> omega

structure Holds (cells : List (Option α)) (max head : Nat) (l : List α) : Prop where
  fits : l.length ≤ max
  allocated : max ≤ cells.length
  inside : head < max ∨ head = 0
  reads : ∀ i v, l[i]? = some v → cells[behind max head i]? = some (some v)

variable {cells : List (Option α)} {max head : Nat} {l : List α}

theorem Holds.nil (h : max ≤ cells.length) : Holds cells max 0 ([] : List α) where
  fits := Nat.zero_le max
  allocated := h
  inside := .inr rfl
  reads := fun i v hv => by simp at hv

theorem Holds.head_lt (h : Holds cells max head l) (hmax : 0 < max) : head < max := by
  rcases h.inside with hlt | rfl
  · exact hlt
  · exact hmax

theorem Holds.push (h : Holds cells max head l) (hmax : 0 < max) (x : α) :
    Holds (cells.set (ahead max head) (some x)) max (ahead max head) (x :: l.take (max - 1)) where
  fits := by
    simp only [length_cons,length_take]
    omega
  allocated := by
    rw [length_set]
    exact h.allocated
  inside := .inl (ahead_lt _ hmax)
  reads := fun i v hv => by
    have hhead := h.head_lt hmax
    have hlt : ahead max head < cells.length := Nat.lt_of_lt_of_le (ahead_lt _ hmax) h.allocated
    cases i with
    | zero =>
      obtain rfl : x = v := by simpa using hv
      rw [behind_zero,getElem?_set_self hlt]
    | succ i =>
      rw [getElem?_cons_succ] at hv
      have hi : i + 1 < max := by
        have hlen := (List.getElem?_eq_some_iff.mp hv).1
        rw [length_take] at hlen
        omega
      have hne : ahead max head ≠ behind max (ahead max head) (i + 1) := by
        have hne : behind max (ahead max head) 0 ≠ behind max (ahead max head) (i + 1) :=
          behind_ne (Nat.succ_pos i) hi
        rwa [behind_zero] at hne
      rw [getElem?_set_ne hne,behind_ahead hhead hi]
      refine h.reads i v ?_
      rwa [getElem?_take_of_lt (by omega)] at hv

theorem Holds.setHead {x : α} (h : Holds cells max head (x :: l)) (y : α) :
    Holds (cells.set head (some y)) max head (y :: l) where
  fits := h.fits
  allocated := by
    rw [length_set]
    exact h.allocated
  inside := h.inside
  reads := fun i v hv => by
    have hfits := h.fits
    rw [length_cons] at hfits
    have hhead := h.head_lt (by omega)
    cases i with
    | zero =>
      obtain rfl : y = v := by simpa using hv
      rw [behind_zero,getElem?_set_self (Nat.lt_of_lt_of_le hhead h.allocated)]
    | succ i =>
      have hi : i < l.length := (List.getElem?_eq_some_iff (l := l).mp hv).1
      have hne : head ≠ behind max head (i + 1) := by
        have hne : behind max head 0 ≠ behind max head (i + 1) :=
          behind_ne (Nat.succ_pos i) (by omega)
        rwa [behind_zero] at hne
      rw [getElem?_set_ne hne]
      exact h.reads (i + 1) v hv

theorem Holds.resize (h : Holds cells max head l) (hwrap : l.length ≤ head + 1) {max' : Nat}
    (hhead : head < max') (halloc : max' ≤ cells.length) : Holds cells max' head l where
  fits := by omega
  allocated := halloc
  inside := .inl hhead
  reads := fun i v hv => by
    have hi : i < l.length := (List.getElem?_eq_some_iff.mp hv).1
    have hread := h.reads i v hv
    unfold behind at hread ⊢
    rwa [if_pos (by omega)] at hread ⊢

theorem Holds.copied (hlt : l.length < max) (halloc : max ≤ cells.length)
    (hread : ∀ i v, l[i]? = some v → cells[l.length - i]? = some (some v)) :
    Holds cells max l.length l where
  fits := Nat.le_of_lt hlt
  allocated := halloc
  inside := .inl hlt
  reads := fun i v hv => by
    have hi : i < l.length := (List.getElem?_eq_some_iff.mp hv).1
    rw [behind,if_pos (Nat.le_of_lt hi)]
    exact hread i v hv

end Condor.Lib.Ring
