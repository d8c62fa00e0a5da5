import Mathlib.Algebra.BigOperators.Ring.Finset

/-!
# Tallies

A count for every key and a count of everything, kept side by side. The tally of a finite set
counts its elements under their keys; an element more or less changes one key and the total.
-/

namespace Condor.Lib

open List Function

@[ext]
structure Tally (κ : Type) where
  part : κ → Int
  total : Int

namespace Tally

variable {κ α : Type} [DecidableEq κ]

def zero : Tally κ := ⟨fun _ => 0,0⟩

/-- The counts after `d` more under one key. -/
def change (t : Tally κ) (k : κ) (d : Int) : Tally κ :=
  ⟨update t.part k (t.part k + d),t.total + d⟩

def changeAt (t : Tally κ) (k : Option κ) (d : Int) : Tally κ := k.elim t fun k => t.change k d

@[simp]
theorem change_part_self (t : Tally κ) (k : κ) (d : Int) :
    (t.change k d).part k = t.part k + d := update_self ..

theorem change_part_of_ne (t : Tally κ) {k k' : κ} (d : Int) (h : k' ≠ k) :
    (t.change k d).part k' = t.part k' := update_of_ne h _ _

@[simp]
theorem change_total (t : Tally κ) (k : κ) (d : Int) : (t.change k d).total = t.total + d := rfl

theorem change_ne_self (t : Tally κ) (k : κ) {d : Int} (hd : d ≠ 0) : t.change k d ≠ t := by
  intro h
  have htotal := congrArg total h
  rw [change_total] at htotal
  omega

theorem change_inj (t : Tally κ) {k k' : κ} {d : Int} (hd : d ≠ 0)
    (h : t.change k d = t.change k' d) : k = k' := by
  by_contra hne
  have hpart := congrFun (congrArg part h) k
  rw [change_part_self,change_part_of_ne t d hne] at hpart
  omega

theorem changeAt_inj (t : Tally κ) {k k' : Option κ} {d : Int} (hd : d ≠ 0) :
    t.changeAt k d = t.changeAt k' d ↔ k = k' := by
  constructor
  · intro h
    cases k with
    | none =>
      cases k' with
      | none => rfl
      | some k' => exact absurd h.symm (change_ne_self t k' hd)
    | some k =>
      cases k' with
      | none => exact absurd h (change_ne_self t k hd)
      | some k' => exact congrArg some (change_inj t hd h)
  · intro h
    rw [h]

def ofSet (key : α → Option κ) (s : Finset α) : Tally κ :=
  ⟨fun k => (s.filter fun x => key x = some k).card,s.card⟩

variable {s : Finset α}

theorem ofSet_congr {key key' : α → Option κ} (h : ∀ x ∈ s, key' x = key x) :
    ofSet key' s = ofSet key s := by
  apply Tally.ext
  · funext k
    apply congrArg (fun t : Finset α => (t.card : Int))
    apply Finset.filter_congr
    intro x hx
    rw [h x hx]
  · rfl

theorem ofSet_total (key : α → Option κ) {ks : Finset κ} (h : ∀ x ∈ s, ∃ k ∈ ks, key x = some k) :
    (ofSet key s).total = ∑ k ∈ ks, (ofSet key s).part k := by
  have hmaps : ∀ x ∈ s, key x ∈ ks.map Function.Embedding.some := by
    intro x hx
    obtain ⟨k,hk,he⟩ := h x hx
    rw [he]
    exact Finset.mem_map_of_mem _ hk
  have hcard := Finset.card_eq_sum_card_fiberwise hmaps
  rw [Finset.sum_map] at hcard
  show (s.card : Int) = _
  rw [hcard,Nat.cast_sum]
  rfl

variable [DecidableEq α]

variable {key : α → Option κ}

theorem ofSet_insert {x : α} {k : κ} (hx : x ∉ s)
    (hk : key x = some k) : ofSet key (insert x s) = (ofSet key s).change k 1 := by
  apply Tally.ext
  · funext k'
    by_cases he : k' = k
    · subst he
      have hnot : x ∉ s.filter fun y => key y = some k' := fun h => hx (Finset.mem_filter.mp h).1
      rw [change_part_self]
      show ((Finset.filter _ (insert x s)).card : Int) = _
      rw [Finset.filter_insert,if_pos hk,Finset.card_insert_of_notMem hnot]
      exact Int.natCast_succ _
    · have hne : ¬key x = some k' := by
        rw [hk]
        exact fun h => he (Option.some.inj h).symm
      rw [change_part_of_ne _ _ he]
      show ((Finset.filter _ (insert x s)).card : Int) = _
      rw [Finset.filter_insert,if_neg hne]
      rfl
  · show ((insert x s).card : Int) = s.card + 1
    rw [Finset.card_insert_of_notMem hx]
    exact Int.natCast_succ _

theorem ofSet_erase {x : α} {k : κ} (hx : x ∈ s)
    (hk : key x = some k) : ofSet key (s.erase x) = (ofSet key s).change k (-1) := by
  have hinsert := ofSet_insert (Finset.notMem_erase x s) hk
  rw [Finset.insert_erase hx] at hinsert
  rw [hinsert]
  apply Tally.ext
  · funext k'
    by_cases he : k' = k
    · rw [he,change_part_self,change_part_self]
      omega
    · rw [change_part_of_ne _ _ he,change_part_of_ne _ _ he]
  · rw [change_total,change_total]
    omega

theorem ofSet_insert_changeAt {x : α} {k : κ} (hk : key x = some k) :
    ofSet key (insert x s) = (ofSet key s).changeAt (if x ∈ s then none else key x) 1 := by
  by_cases hx : x ∈ s
  · rw [Finset.insert_eq_of_mem hx,if_pos hx]
    rfl
  · rw [ofSet_insert hx hk,if_neg hx,hk]
    rfl

theorem ofSet_erase_changeAt {x : α} {k : κ} (hk : key x = some k) :
    ofSet key (s.erase x) = (ofSet key s).changeAt (if x ∈ s then key x else none) (-1) := by
  by_cases hx : x ∈ s
  · rw [ofSet_erase hx hk,if_pos hx,hk]
    rfl
  · rw [Finset.erase_eq_of_notMem hx,if_neg hx]
    rfl

end Tally

def count (bound : Nat) (test : Nat → Bool) : Nat := (List.range bound).countP test

theorem count_succ (bound : Nat) (test : Nat → Bool) :
    count (bound + 1) test = count bound test + (test bound).toNat := by
  rw [count,range_succ,countP_append,countP_singleton]
  cases test bound <;> rfl

theorem count_congr {bound : Nat} {test test' : Nat → Bool}
    (h : ∀ i < bound, test' i = test i) : count bound test' = count bound test := by
  apply countP_congr
  intro i hi
  rw [h i (List.mem_range.mp hi)]

theorem count_eq_zero {bound : Nat} {test : Nat → Bool} (h : ∀ i < bound, test i = false) :
    count bound test = 0 := by
  rw [count,countP_eq_zero]
  intro i hi
  simp [h i (List.mem_range.mp hi)]

theorem count_update {bound n : Nat} (test test' : Nat → Bool) (hn : n < bound)
    (h : ∀ i, i ≠ n → test' i = test i) :
    count bound test' + (test n).toNat = count bound test + (test' n).toNat := by
  induction bound with
  | zero => omega
  | succ bound ih =>
    rw [count_succ,count_succ]
    rcases Nat.lt_succ_iff_lt_or_eq.mp hn with hlt | rfl
    · have hb : test' bound = test bound := h bound (Nat.ne_of_gt hlt)
      have := ih hlt
      rw [hb]
      omega
    · have hsame : count n test' = count n test := count_congr fun i hi => h i (Nat.ne_of_lt hi)
      omega

end Condor.Lib
