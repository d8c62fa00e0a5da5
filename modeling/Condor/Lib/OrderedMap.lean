import Mathlib.Data.List.Sort

/-!
# Maps and sets kept in order

A finite map as the list of its entries in increasing order of their keys, and a finite set as
the list of its elements, which is also the order in which they are iterated.
-/

namespace Condor.Lib

open List

structure OrderedMap (α β : Type) [LinearOrder α] where
  entries : List (α × β)
  sorted : entries.Pairwise fun a b => a.1 < b.1
  deriving DecidableEq

namespace OrderedMap

variable {α β : Type} [LinearOrder α]

def empty : OrderedMap α β := ⟨[],List.Pairwise.nil⟩

def place (k : α) (v : β) : List (α × β) → List (α × β)
  | [] => [(k,v)]
  | e :: es =>
    if k < e.1 then (k,v) :: e :: es else if e.1 < k then e :: place k v es else (k,v) :: es

variable {k : α} {es : List (α × β)}

theorem mem_place {v : β} {e : α × β} (h : e ∈ place k v es) :
    e = (k,v) ∨ e ∈ es := by
  induction es with
  | nil =>
    rw [place,mem_singleton] at h
    exact .inl h
  | cons a es ih =>
    rw [place] at h
    split at h
    · exact List.mem_cons.mp h
    · split at h
      · cases List.mem_cons.mp h with
        | inl he => exact .inr (List.mem_cons.mpr (.inl he))
        | inr hm => exact (ih hm).imp_right (mem_cons_of_mem a)
      · exact (List.mem_cons.mp h).imp_right (mem_cons_of_mem a)

theorem place_sorted {v : β} (h : es.Pairwise fun a b => a.1 < b.1) :
    (place k v es).Pairwise fun a b => a.1 < b.1 := by
  induction es with
  | nil => exact pairwise_singleton _ _
  | cons a es ih =>
    rw [pairwise_cons] at h
    rw [place]
    split
    · next hlt =>
      refine List.pairwise_cons.mpr ⟨?_,List.pairwise_cons.mpr h⟩
      intro b hb
      cases List.mem_cons.mp hb with
      | inl he => exact he ▸ hlt
      | inr hm => exact lt_trans hlt (h.1 b hm)
    · next hnlt =>
      split
      · next hgt =>
        refine List.pairwise_cons.mpr ⟨?_,ih h.2⟩
        intro b hb
        cases mem_place hb with
        | inl he => exact he ▸ hgt
        | inr hm => exact h.1 b hm
      · next hngt =>
        have hk : k = a.1 := le_antisymm (not_lt.mp hngt) (not_lt.mp hnlt)
        exact List.pairwise_cons.mpr ⟨fun b hb => hk ▸ h.1 b hb,h.2⟩

def insert (m : OrderedMap α β) (k : α) (v : β) : OrderedMap α β :=
  ⟨place k v m.entries,place_sorted m.sorted⟩

def erase (m : OrderedMap α β) (k : α) : OrderedMap α β :=
  ⟨m.entries.filter fun e => decide (e.1 ≠ k),m.sorted.sublist filter_sublist⟩

def insertAll (m : OrderedMap α β) (es : List (α × β)) : OrderedMap α β :=
  es.foldl (fun m e => m.insert e.1 e.2) m

theorem mem_insert {m : OrderedMap α β} {v : β} {e : α × β}
    (h : e ∈ (m.insert k v).entries) : e = (k,v) ∨ e ∈ m.entries := mem_place h

theorem mem_place_self (k : α) (v : β) (es : List (α × β)) : (k,v) ∈ place k v es := by
  induction es with
  | nil => exact mem_singleton_self _
  | cons a es ih =>
    rw [place]
    split
    · exact mem_cons_self ..
    · split
      · exact mem_cons_of_mem a ih
      · exact mem_cons_self ..

theorem mem_insert_self (m : OrderedMap α β) (k : α) (v : β) : (k,v) ∈ (m.insert k v).entries :=
  mem_place_self k v m.entries

theorem mem_erase {m : OrderedMap α β} {e : α × β} (h : e ∈ (m.erase k).entries) :
    e ∈ m.entries := (List.mem_filter.mp h).1

theorem place_last {v : β} (h : ∀ e ∈ es, e.1 < k) :
    place k v es = es ++ [(k,v)] := by
  induction es with
  | nil => rfl
  | cons a es ih =>
    have ha := h a (mem_cons_self ..)
    rw [place,if_neg (lt_asymm ha),if_pos ha,ih fun e he => h e (mem_cons_of_mem a he),
      cons_append]

theorem insertAll_entries (m : OrderedMap α β) (es : List (α × β))
    (h : (m.entries ++ es).Pairwise fun a b => a.1 < b.1) :
    (m.insertAll es).entries = m.entries ++ es := by
  induction es generalizing m with
  | nil => exact (append_nil _).symm
  | cons e es ih =>
    have hlast : (m.insert e.1 e.2).entries = m.entries ++ [e] := by
      apply place_last
      intro a ha
      exact (List.pairwise_append.mp h).2.2 a ha e (mem_cons_self ..)
    have hsorted : ((m.insert e.1 e.2).entries ++ es).Pairwise fun a b => a.1 < b.1 := by
      rw [hlast,append_assoc]
      exact h
    have hall := ih (m.insert e.1 e.2) hsorted
    rw [hlast,append_assoc] at hall
    exact hall

theorem insertAll_self (m : OrderedMap α β) : empty.insertAll m.entries = m := by
  have h := insertAll_entries empty m.entries m.sorted
  rw [show (empty : OrderedMap α β).entries = [] from rfl,nil_append] at h
  cases hm : (empty : OrderedMap α β).insertAll m.entries
  rw [hm] at h
  cases m
  cases h
  rfl

end OrderedMap

structure OrderedSet (α : Type) [LinearOrder α] where
  elems : List α
  sorted : elems.Pairwise (· < ·)
  deriving DecidableEq

namespace OrderedSet

variable {α : Type} [LinearOrder α]

instance : Membership α (OrderedSet α) where
  mem s a := a ∈ s.elems

instance (a : α) (s : OrderedSet α) : Decidable (a ∈ s) :=
  inferInstanceAs (Decidable (a ∈ s.elems))

def empty : OrderedSet α := ⟨[],List.Pairwise.nil⟩

def place (a : α) : List α → List α
  | [] => [a]
  | b :: bs => if a < b then a :: b :: bs else if b < a then b :: place a bs else b :: bs

theorem mem_place {a b : α} {bs : List α} : b ∈ place a bs ↔ b = a ∨ b ∈ bs := by
  induction bs with
  | nil => simp [place]
  | cons c cs ih =>
    rw [place]
    split
    · simp
    · split
      · rw [mem_cons,ih,mem_cons]
        exact or_left_comm
      · next h1 h2 =>
        have hac : a = c := le_antisymm (not_lt.mp h2) (not_lt.mp h1)
        simp [hac]

theorem place_sorted {a : α} {bs : List α} (h : bs.Pairwise (· < ·)) :
    (place a bs).Pairwise (· < ·) := by
  induction bs with
  | nil => simp [place]
  | cons c cs ih =>
    rw [pairwise_cons] at h
    rw [place]
    split
    · next hac =>
      refine List.pairwise_cons.mpr ⟨?_,List.pairwise_cons.mpr h⟩
      intro b hb
      rcases List.mem_cons.mp hb with rfl | hb
      · exact hac
      · exact hac.trans (h.1 b hb)
    · split
      · next hca =>
        refine List.pairwise_cons.mpr ⟨?_,ih h.2⟩
        intro b hb
        rcases mem_place.mp hb with rfl | hb
        · exact hca
        · exact h.1 b hb
      · exact List.pairwise_cons.mpr h

def insert (a : α) (s : OrderedSet α) : OrderedSet α := ⟨place a s.elems,place_sorted s.sorted⟩

def erase (a : α) (s : OrderedSet α) : OrderedSet α :=
  ⟨s.elems.erase a,s.sorted.sublist erase_sublist⟩

def isEmpty (s : OrderedSet α) : Bool := s.elems.isEmpty

@[simp] theorem not_mem_empty (a : α) : a ∉ (empty : OrderedSet α) := not_mem_nil

@[simp] theorem mem_insert {a b : α} {s : OrderedSet α} : b ∈ s.insert a ↔ b = a ∨ b ∈ s :=
  mem_place

theorem nodup (s : OrderedSet α) : s.elems.Nodup := s.sorted.imp ne_of_lt

@[simp] theorem mem_erase {a b : α} {s : OrderedSet α} : b ∈ s.erase a ↔ b ≠ a ∧ b ∈ s :=
  s.nodup.mem_erase_iff

theorem ext {s t : OrderedSet α} (h : ∀ a, a ∈ s ↔ a ∈ t) : s = t := by
  obtain ⟨xs,hxs⟩ := s
  obtain ⟨ys,hys⟩ := t
  have hperm : xs.Perm ys := (perm_ext_iff_of_nodup (hxs.imp ne_of_lt) (hys.imp ne_of_lt)).mpr h
  obtain rfl : xs = ys := hperm.eq_of_pairwise (fun a b _ _ hab hba => absurd hab hba.asymm) hxs hys
  rfl

theorem isEmpty_iff (s : OrderedSet α) : s.isEmpty = true ↔ ∀ a, a ∉ s := by
  rw [isEmpty,List.isEmpty_iff,eq_nil_iff_forall_not_mem]
  exact Iff.rfl

end OrderedSet

end Condor.Lib
