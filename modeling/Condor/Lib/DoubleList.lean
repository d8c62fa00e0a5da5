import Mathlib.Data.List.Nodup

/-!
# Doubly linked lists

Each cell knows its neighbours. The fields of the cells are maps from addresses, so that a write to
one field leaves the others alone.
-/

namespace Condor.Lib

open List Function

structure Neighbours (ι : Type) where
  prev : ι → Option ι
  next : ι → Option ι

/-- From `p`, whose predecessor is `b`, a walk meets the cells of the list and stands at `q`. -/
def Neighbours.Walk {ι : Type} (l : Neighbours ι) : Option ι → Option ι → List ι → Option ι → Prop
  | _, p, [], q => p = q
  | b, p, x :: xs, q => p = some x ∧ l.prev x = b ∧ l.Walk (some x) (l.next x) xs q

/-- The list with the first cell `h`. -/
def Neighbours.Holds {ι : Type} (l : Neighbours ι) (h : Option ι) (xs : List ι) : Prop :=
  l.Walk none h xs none

namespace Neighbours

variable {ι : Type} {l l' : Neighbours ι} {b p q : Option ι} {x : ι} {xs ys : List ι}

def back (b : Option ι) (xs : List ι) : Option ι := xs.getLast?.or b

@[simp] theorem back_nil : back b ([] : List ι) = b := rfl

@[simp] theorem back_cons : back b (x :: xs) = back (some x) xs := by
  cases h : xs.getLast? with
  | none | some => simp [back,getLast?_cons,h]

@[simp] theorem back_none : back none xs = xs.getLast? := by simp [back]

theorem Walk.append :
    l.Walk b p (xs ++ ys) q ↔ ∃ r, l.Walk b p xs r ∧ l.Walk (back b xs) r ys q := by
  induction xs generalizing b p with
  | nil => simp [Walk]
  | cons x xs ih =>
    simp only [cons_append,Walk,ih,back_cons]
    constructor
    · intro ⟨hp,hb,r,hr,hq⟩
      exact ⟨r,⟨hp,hb,hr⟩,hq⟩
    · intro ⟨r,⟨hp,hb,hr⟩,hq⟩
      exact ⟨hp,hb,r,hr,hq⟩

theorem Walk.congr (h : l.Walk b p xs q)
    (hl : ∀ z ∈ xs, l'.prev z = l.prev z ∧ l'.next z = l.next z) : l'.Walk b p xs q := by
  induction xs generalizing b p with
  | nil => exact h
  | cons x xs ih =>
    obtain ⟨hp,hb,hw⟩ := h
    have hx := hl x mem_cons_self
    refine ⟨hp,hx.1.trans hb,?_⟩
    rw [hx.2]
    exact ih hw fun z hz => hl z (mem_cons_of_mem x hz)

theorem Holds.congr (h : l.Holds p xs)
    (hl : ∀ z ∈ xs, l'.prev z = l.prev z ∧ l'.next z = l.next z) :
    l'.Holds p xs :=
  Walk.congr h hl

theorem Holds.head_eq (h : l.Holds p xs) : p = xs.head? := by
  cases xs with
  | nil => exact h
  | cons x xs => exact h.1

theorem Holds.around (h : l.Holds p (xs ++ x :: ys)) :
    l.prev x = xs.getLast? ∧ l.next x = ys.head? := by
  obtain ⟨r,-,hr⟩ := Walk.append.mp h
  obtain ⟨-,hp,hw⟩ := hr
  refine ⟨by simpa using hp,?_⟩
  cases ys with
  | nil => exact hw
  | cons y ys => exact hw.1

variable [DecidableEq ι]

def push (l : Neighbours ι) (h : Option ι) (x : ι) : Neighbours ι where
  prev := match h with
    | none => update l.prev x none
    | some y => update (update l.prev x none) y (some x)
  next := update l.next x h

theorem push_next (h : Option ι) (z : ι) :
    (l.push h x).next z = if z = x then h else l.next z := by
  simp [push,update_apply]

theorem push_prev (h : Option ι) (z : ι) :
    (l.push h x).prev z = if h = some z then some x else if z = x then none else l.prev z := by
  cases h with
  | none => simp [push,update_apply]
  | some y => simp [push,update_apply,eq_comm]

theorem Holds.push (h : l.Holds p xs) (hnd : xs.Nodup) (hx : x ∉ xs) :
    (l.push p x).Holds (some x) (x :: xs) := by
  have hp := h.head_eq
  refine ⟨rfl,?_,?_⟩
  · rw [push_prev]
    split
    · rename_i hpx
      rw [hp] at hpx
      exact absurd (mem_of_head? hpx) hx
    · simp
  · rw [push_next,if_pos rfl]
    cases xs with
    | nil => exact h
    | cons y xs =>
      obtain ⟨hy,-,hw⟩ := h
      have hyx : y ≠ x := fun h => hx (by simp [h])
      refine ⟨hy,by rw [push_prev,if_pos hy],?_⟩
      rw [push_next,if_neg hyx]
      refine hw.congr fun z hz => ?_
      have hzx : z ≠ x := fun h => hx (by simp [← h,hz])
      have hzy : y ≠ z := fun h => (List.nodup_cons.mp hnd).1 (h ▸ hz)
      rw [push_prev,push_next,if_neg hzx,hy,if_neg (by simpa using hzy),if_neg hzx]
      exact ⟨rfl,rfl⟩

theorem Holds.push_other {h : Option ι} (hl : l.Holds p ys) (hx : x ∉ ys)
    (hh : ∀ z ∈ ys, h ≠ some z) :
    (l.push h x).Holds p ys := by
  refine hl.congr fun z hz => ?_
  have hzx : z ≠ x := fun h => hx (h ▸ hz)
  rw [push_prev,push_next,if_neg hzx,if_neg (hh z hz),if_neg hzx]
  exact ⟨rfl,rfl⟩

def join (l : Neighbours ι) (h b c : Option ι) : Neighbours ι × Option ι :=
  ({ prev := match c with
      | none => l.prev
      | some z => update l.prev z b
     next := match b with
      | none => l.next
      | some y => update l.next y c },
    match b with
    | none => c
    | some _ => h)

theorem join_prev (h b c : Option ι) (z : ι) :
    (l.join h b c).1.prev z = if c = some z then b else l.prev z := by
  cases c with
  | none => simp [join]
  | some y => simp [join,update_apply,eq_comm]

theorem join_next (h b c : Option ι) (z : ι) :
    (l.join h b c).1.next z = if b = some z then c else l.next z := by
  cases b with
  | none => simp [join]
  | some y => simp [join,update_apply,eq_comm]

theorem Holds.join (h : l.Holds p (xs ++ x :: ys)) (hnd : (xs ++ x :: ys).Nodup) :
    (l.join p xs.getLast? ys.head?).1.Holds (l.join p xs.getLast? ys.head?).2 (xs ++ ys) := by
  obtain ⟨r,hxs,hr,hx,hys⟩ := Walk.append.mp h
  obtain ⟨hndx,hndy,hdis⟩ := List.nodup_append.mp hnd
  have hfront : ∀ z ∈ xs, ys.head? ≠ some z := fun z hz hy =>
    hdis z hz z (mem_cons_of_mem x (mem_of_head? hy)) rfl
  have hback : ∀ z ∈ ys, xs.getLast? ≠ some z := fun z hz hy =>
    hdis z (mem_of_getLast? hy) z (mem_cons_of_mem x hz) rfl
  refine Walk.append.mpr ⟨ys.head?,?_,?_⟩
  · -- the cells before: only the last of them has a new successor
    rcases eq_nil_or_concat xs with rfl | ⟨zs,w,rfl⟩
    · rfl
    · rw [concat_eq_append] at hxs hndx hfront ⊢
      obtain ⟨s,hzs,hs,hw,-⟩ := Walk.append.mp hxs
      simp only [getLast?_append,getLast?_singleton,Option.some_or]
      refine Walk.append.mpr ⟨s,hzs.congr fun z hz => ?_,hs,?_,?_⟩
      · have hzw : w ≠ z := fun h =>
          (List.nodup_append.mp hndx).2.2 z hz w mem_cons_self h.symm
        rw [join_prev,join_next,if_neg (hfront z (by simp [hz])),if_neg (by simpa using hzw)]
        exact ⟨rfl,rfl⟩
      · rw [join_prev,if_neg (hfront w (by simp))]
        exact hw
      · simp [join_next,Walk]
  · cases ys with
    | nil => rfl
    | cons y ys =>
      obtain ⟨hy,-,hw⟩ := hys
      have hny : xs.getLast? ≠ some y := hback y mem_cons_self
      refine ⟨rfl,by simp [join_prev],?_⟩
      rw [join_next,if_neg hny]
      refine hw.congr fun z hz => ?_
      have hyz : y ≠ z := fun h =>
        (List.nodup_cons.mp (List.nodup_cons.mp hndy).2).1 (h ▸ hz)
      rw [join_prev,join_next,if_neg (hback z (mem_cons_of_mem y hz)),
        if_neg (by simpa using hyz)]
      exact ⟨rfl,rfl⟩

theorem Holds.join_other {h c : Option ι} (hl : l.Holds p ys) (hb : ∀ z ∈ ys, b ≠ some z)
    (hc : ∀ z ∈ ys, c ≠ some z) : (l.join h b c).1.Holds p ys := by
  refine hl.congr fun z hz => ?_
  rw [join_prev,join_next,if_neg (hb z hz),if_neg (hc z hz)]
  exact ⟨rfl,rfl⟩

/-- The list that ends with `w` goes on with the list whose first cell is `h`. -/
def link (l : Neighbours ι) (w : ι) (h : Option ι) : Neighbours ι :=
  (l.join none (some w) h).1

theorem Holds.link {h : Option ι} {w : ι} (hxs : l.Holds p (xs ++ [w])) (hys : l.Holds h ys)
    (hnd : (xs ++ [w] ++ ys).Nodup) : (l.link w h).Holds p (xs ++ [w] ++ ys) := by
  obtain ⟨hndx,hndy,hdis⟩ := List.nodup_append.mp hnd
  have hh := hys.head_eq
  have hfront : ∀ z ∈ xs ++ [w], h ≠ some z := fun z hz hy =>
    hdis z hz z (mem_of_head? (hh ▸ hy)) rfl
  obtain ⟨s,hs,hs',hw,-⟩ := Walk.append.mp hxs
  refine Walk.append.mpr ⟨h,Walk.append.mpr ⟨s,hs.congr fun z hz => ?_,hs',?_,?_⟩,?_⟩
  · have hzw : w ≠ z := fun h => (List.nodup_append.mp hndx).2.2 z hz w mem_cons_self h.symm
    rw [Neighbours.link,join_prev,join_next,if_neg (hfront z (by simp [hz])),
      if_neg (by simpa using hzw)]
    exact ⟨rfl,rfl⟩
  · rw [Neighbours.link,join_prev,if_neg (hfront w (by simp))]
    exact hw
  · simp [Neighbours.link,join_next,Walk]
  · cases ys with
    | nil => exact hys
    | cons y ys =>
      obtain ⟨hy,-,hwalk⟩ := hys
      have hyw : w ≠ y := fun h => hdis w (by simp) y mem_cons_self h
      refine ⟨hy,by simp [Neighbours.link,join_prev,hy],?_⟩
      rw [Neighbours.link,join_next,if_neg (by simpa using hyw)]
      refine hwalk.congr fun z hz => ?_
      have hyz : y ≠ z := fun h => (List.nodup_cons.mp hndy).1 (h ▸ hz)
      have hwz : w ≠ z := fun h => hdis w (by simp) z (mem_cons_of_mem y hz) h
      rw [join_prev,join_next,hy,if_neg (by simpa using hyz),if_neg (by simpa using hwz)]
      exact ⟨rfl,rfl⟩

end Neighbours

end Condor.Lib
