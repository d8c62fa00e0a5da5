import Mathlib.Data.List.Basic

/-!
# Singly linked lists in a heap

A heap is read by address; a cell names the address of the next one. A segment from `p` to `q`
is the list of addresses that a walk from `p` meets before it stands at `q`.
-/

namespace Condor.Lib

open List Option

variable {α β : Type}

def Segment (read : α → Option β) (next : β → Option α) : Option α → List α → Option α → Prop
  | p, [], q => p = q
  | p, a :: as, q => p = some a ∧ ∃ c, read a = some c ∧ Segment read next (next c) as q

namespace Segment

variable {read read' : α → Option β} {next : β → Option α} {p q r : Option α} {a b : α}
  {as bs : List α}

theorem append : Segment read next p (as ++ bs) q ↔
    ∃ r, Segment read next p as r ∧ Segment read next r bs q := by
  induction as generalizing p with
  | nil => simp [Segment]
  | cons a as ih =>
    simp only [cons_append,Segment,ih]
    constructor
    · rintro ⟨hp,c,hc,r,hr,hq⟩
      exact ⟨r,⟨hp,c,hc,hr⟩,hq⟩
    · rintro ⟨r,⟨hp,c,hc,hr⟩,hq⟩
      exact ⟨hp,c,hc,r,hr,hq⟩

theorem snoc : Segment read next p (as ++ [a]) q ↔
    Segment read next p as (some a) ∧ ∃ c, read a = some c ∧ next c = q := by
  rw [append]
  simp [Segment]

theorem live (h : Segment read next p as q) (ha : a ∈ as) : ∃ c, read a = some c := by
  induction as generalizing p with
  | nil => simp at ha
  | cons b as ih =>
    obtain ⟨-,c,hc,hs⟩ := h
    rcases List.mem_cons.mp ha with rfl | ha
    · exact ⟨c,hc⟩
    · exact ih hs ha

theorem congr (h : Segment read next p as q)
    (hr : ∀ a ∈ as, (read' a).map next = (read a).map next) : Segment read' next p as q := by
  induction as generalizing p with
  | nil => exact h
  | cons a as ih =>
    obtain ⟨hp,c,hc,hs⟩ := h
    have ha := hr a mem_cons_self
    rw [hc,map_some,map_eq_some_iff] at ha
    obtain ⟨c',hc',hn⟩ := ha
    refine ⟨hp,c',hc',?_⟩
    rw [hn]
    exact ih hs fun b hb => hr b (mem_cons_of_mem a hb)

theorem head_eq (h : Segment read next p as none) : p = as.head? := by
  cases as with
  | nil => exact h
  | cons a as => exact h.1

variable [DecidableEq α]

theorem remove {cb cb' ca : β} (h : Segment read next p (as ++ b :: a :: bs) none)
    (hnd : (as ++ b :: a :: bs).Nodup) (hb : read b = some cb) (ha : read a = some ca)
    (hread : ∀ x, read' x = if x = b then some cb' else read x) (hn : next cb' = next ca) :
    Segment read' next p (as ++ b :: bs) none := by
  rw [append] at h ⊢
  obtain ⟨r,hr,rfl,c,hc,-,c',hc',hs⟩ := h
  obtain rfl : ca = c' := some.inj (ha.symm.trans hc')
  rw [nodup_append] at hnd
  obtain ⟨-,hnd,hdis⟩ := hnd
  obtain ⟨hb',hnd⟩ := List.nodup_cons.mp hnd
  refine ⟨some b,hr.congr fun x hx => ?_,rfl,cb',by rw [hread,if_pos rfl],?_⟩
  · have hxb : x ≠ b := hdis x hx b mem_cons_self
    rw [hread,if_neg hxb]
  · rw [hn]
    refine hs.congr fun x hx => ?_
    have hxb : x ≠ b := by
      rintro rfl
      exact hb' (mem_cons_of_mem a hx)
    rw [hread,if_neg hxb]

theorem insert {cb cb' ca : β} (h : Segment read next p (as ++ b :: bs) none)
    (hnd : (as ++ b :: bs).Nodup) (ha : a ∉ as ++ b :: bs) (hb : read b = some cb)
    (hread : ∀ x, read' x = if x = b then some cb' else if x = a then some ca else read x)
    (hna : next ca = next cb) (hnb : next cb' = some a) :
    Segment read' next p (as ++ b :: a :: bs) none := by
  have hab : a ≠ b := fun h => ha (by simp [h])
  have hframe : ∀ x, x ∈ as ++ bs → read' x = read x := by
    intro x hx
    have hxb : x ≠ b := by
      rintro rfl
      rw [nodup_append] at hnd
      rcases List.mem_append.mp hx with hx | hx
      · exact hnd.2.2 x hx x mem_cons_self rfl
      · exact (List.nodup_cons.mp hnd.2.1).1 hx
    have hxa : x ≠ a := by
      rintro rfl
      apply ha
      rcases List.mem_append.mp hx with hx | hx <;> simp [hx]
    rw [hread,if_neg hxb,if_neg hxa]
  rw [append] at h ⊢
  obtain ⟨r,hr,rfl,c,hc,hs⟩ := h
  obtain rfl : cb = c := some.inj (hb.symm.trans hc)
  refine ⟨some b,hr.congr fun x hx => by rw [hframe x (mem_append_left bs hx)],rfl,cb',?_,
    hnb,ca,?_,?_⟩
  · rw [hread,if_pos rfl]
  · rw [hread,if_neg hab,if_pos rfl]
  · rw [hna]
    exact hs.congr fun x hx => by rw [hframe x (mem_append_right as hx)]

end Segment

end Condor.Lib
