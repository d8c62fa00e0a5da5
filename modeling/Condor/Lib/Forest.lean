import Mathlib.Data.List.Nodup
import Mathlib.Data.List.Perm.Basic

/-!
# Forests

A forest is empty, or a first tree, given by its root and the forest of its children, with the
forest of the siblings.
-/

namespace Condor.Lib

open List

inductive Forest (ι : Type) where
  | nil
  | cons (root : ι) (children siblings : Forest ι)

namespace Forest

variable {ι : Type}

def ids : Forest ι → List ι
  | nil => []
  | cons x c s => x :: (c.ids ++ s.ids)

def roots : Forest ι → List ι
  | nil => []
  | cons x _ s => x :: s.roots

def append : Forest ι → Forest ι → Forest ι
  | nil, t => t
  | cons x c s, t => cons x c (s.append t)

@[simp] theorem ids_nil : (nil : Forest ι).ids = [] := rfl

@[simp] theorem ids_cons (x : ι) (c s : Forest ι) : (cons x c s).ids = x :: (c.ids ++ s.ids) := rfl

@[simp] theorem ids_append (s t : Forest ι) : (s.append t).ids = s.ids ++ t.ids := by
  induction s with
  | nil => rfl
  | cons x c s _ ih => simp [append,ih]

theorem roots_sublist (f : Forest ι) : f.roots.Sublist f.ids := by
  induction f with
  | nil => exact List.Sublist.refl _
  | cons y c s _ ih => exact (ih.trans (sublist_append_right _ _)).cons_cons y

variable {f : Forest ι} {x : ι}

theorem mem_ids_of_mem_roots (h : x ∈ f.roots) : x ∈ f.ids :=
  f.roots_sublist.subset h

variable [DecidableEq ι]

def under (x : ι) : Forest ι → Forest ι
  | nil => nil
  | cons y c s => if y = x then c else if x ∈ c.ids then c.under x else s.under x

def erase (x : ι) : Forest ι → Forest ι
  | nil => nil
  | cons y c s => if y = x then c.append s else cons y (c.erase x) (s.erase x)

def insert (p x : ι) : Forest ι → Forest ι
  | nil => nil
  | cons y c s => if y = p then cons y (cons x nil c) s else cons y (c.insert p x) (s.insert p x)

theorem erase_of_not_mem (h : x ∉ f.ids) : f.erase x = f := by
  induction f with
  | nil => rfl
  | cons y c s ihc ihs =>
    simp only [ids_cons,mem_cons,mem_append,not_or] at h
    rw [erase,if_neg (Ne.symm h.1),ihc h.2.1,ihs h.2.2]

theorem insert_of_not_mem {p x : ι} (h : p ∉ f.ids) : f.insert p x = f := by
  induction f with
  | nil => rfl
  | cons y c s ihc ihs =>
    simp only [ids_cons,mem_cons,mem_append,not_or] at h
    rw [insert,if_neg (Ne.symm h.1),ihc h.2.1,ihs h.2.2]

theorem ids_erase (hnd : f.ids.Nodup) : (f.erase x).ids = f.ids.erase x := by
  induction f with
  | nil => rfl
  | cons y c s ihc ihs =>
    obtain ⟨hy,hcs⟩ := List.nodup_cons.mp hnd
    obtain ⟨hc,hs,hdis⟩ := List.nodup_append.mp hcs
    by_cases hyx : y = x
    · simp [erase,hyx]
    · simp only [erase,if_neg hyx,ids_cons,ihc hc,ihs hs]
      rw [erase_cons_tail (by simpa using hyx)]
      by_cases hxc : x ∈ c.ids
      · have hxs : x ∉ s.ids := fun h => hdis x hxc x h rfl
        rw [erase_append_left _ hxc,List.erase_of_not_mem hxs]
      · rw [erase_append_right _ hxc,List.erase_of_not_mem hxc]

theorem ids_insert {p x : ι} (hnd : f.ids.Nodup) (hp : p ∈ f.ids) :
    (f.insert p x).ids.Perm (x :: f.ids) := by
  induction f with
  | nil => simp at hp
  | cons y c s ihc ihs =>
    obtain ⟨hy,hcs⟩ := List.nodup_cons.mp hnd
    obtain ⟨hc,hs,hdis⟩ := List.nodup_append.mp hcs
    by_cases hyp : y = p
    · simp only [insert,if_pos hyp,ids_cons,ids_nil,nil_append,cons_append]
      exact List.Perm.swap x y _
    · simp only [insert,if_neg hyp,ids_cons]
      simp only [ids_cons,mem_cons,mem_append] at hp
      rcases hp with hp | hp | hp
      · exact absurd hp.symm hyp
      · have hps : p ∉ s.ids := fun h => hdis p hp p h rfl
        rw [insert_of_not_mem hps]
        refine List.Perm.trans (List.Perm.cons y (List.Perm.append_right s.ids (ihc hc hp))) ?_
        exact List.Perm.swap x y _
      · have hpc : p ∉ c.ids := fun h => hdis p h p hp rfl
        rw [insert_of_not_mem hpc]
        refine List.Perm.trans (List.Perm.cons y (List.Perm.append_left c.ids (ihs hs hp))) ?_
        refine List.Perm.trans (List.Perm.cons y perm_middle) ?_
        exact List.Perm.swap x y _

theorem under_sublist (x : ι) (f : Forest ι) : (f.under x).ids.Sublist f.ids := by
  induction f with
  | nil => exact List.Sublist.refl _
  | cons y c s ihc ihs =>
    unfold under
    split
    · exact (sublist_append_left _ _).cons y
    · split
      · exact (ihc.trans (sublist_append_left _ _)).cons y
      · exact (ihs.trans (sublist_append_right _ _)).cons y

theorem cons_under_sublist (hx : x ∈ f.ids) :
    (x :: (f.under x).ids).Sublist f.ids := by
  induction f with
  | nil => simp at hx
  | cons y c s ihc ihs =>
    simp only [ids_cons,mem_cons,mem_append] at hx
    unfold under
    split
    · rename_i hyx
      subst hyx
      exact (sublist_append_left _ _).cons_cons y
    · rename_i hyx
      split
      · rename_i hxc
        exact ((ihc hxc).trans (sublist_append_left _ _)).cons y
      · rename_i hxc
        have hxs := (hx.resolve_left (Ne.symm hyx)).resolve_left hxc
        exact ((ihs hxs).trans (sublist_append_right _ _)).cons y

theorem not_mem_under (hnd : f.ids.Nodup) : x ∉ (f.under x).ids := by
  induction f with
  | nil => simp [under]
  | cons y c s ihc ihs =>
    obtain ⟨hy,hcs⟩ := List.nodup_cons.mp hnd
    obtain ⟨hc,hs,-⟩ := List.nodup_append.mp hcs
    unfold under
    split
    · rename_i hyx
      exact fun h => hy (by simp [hyx,h])
    · split
      · exact ihc hc
      · exact ihs hs

theorem under_under {x y : ι} (hnd : f.ids.Nodup) (hy : y ∈ (f.under x).ids) :
    (f.under x).under y = f.under y := by
  induction f with
  | nil => rfl
  | cons w c s ihc ihs =>
    obtain ⟨hw,hcs⟩ := List.nodup_cons.mp hnd
    obtain ⟨hc,hs,hdis⟩ := List.nodup_append.mp hcs
    rw [under] at hy ⊢
    split at hy
    · rename_i hwx
      have hwy : w ≠ y := fun h => hw (by simp [h,hy])
      rw [if_pos hwx,under,if_neg hwy,if_pos hy]
    · rename_i hwx
      rw [if_neg hwx]
      split at hy
      · rename_i hxc
        have hyc : y ∈ c.ids := (c.under_sublist x).subset hy
        have hwy : w ≠ y := fun h => hw (by simp [h,hyc])
        rw [if_pos hxc,ihc hc hy,under,if_neg hwy,if_pos hyc]
      · rename_i hxc
        have hys : y ∈ s.ids := (s.under_sublist x).subset hy
        have hyc : y ∉ c.ids := fun h => hdis y h y hys rfl
        have hwy : w ≠ y := fun h => hw (by simp [h,hys])
        rw [if_neg hxc,ihs hs hy,under,if_neg hwy,if_neg hyc]

theorem mem_under_trans {x y z : ι} (hnd : f.ids.Nodup) (hy : y ∈ (f.under x).ids)
    (hz : z ∈ (f.under y).ids) : z ∈ (f.under x).ids := by
  rw [← under_under hnd hy] at hz
  exact ((f.under x).under_sublist y).subset hz

theorem length_under_lt {x y : ι} (hnd : f.ids.Nodup) (hy : y ∈ (f.under x).ids) :
    (f.under y).ids.length < (f.under x).ids.length := by
  have hle := (cons_under_sublist hy).length_le
  rw [under_under hnd hy,length_cons] at hle
  exact hle

theorem under_append (x : ι) (c s : Forest ι) :
    (c.append s).under x = if x ∈ c.ids then c.under x else s.under x := by
  induction c with
  | nil => simp [append]
  | cons y d t _ iht =>
    by_cases hyx : y = x
    · simp [append,under,hyx]
    · by_cases hxd : x ∈ d.ids
      · simp [append,under,hyx,hxd]
      · simp [append,under,hyx,hxd,iht,Ne.symm hyx]

theorem under_erase {x y : ι} (hnd : f.ids.Nodup) (hne : y ≠ x) :
    (f.erase x).under y = (f.under y).erase x := by
  induction f with
  | nil => rfl
  | cons w c s ihc ihs =>
    obtain ⟨hw,hcs⟩ := List.nodup_cons.mp hnd
    obtain ⟨hc,hs,-⟩ := List.nodup_append.mp hcs
    by_cases hwx : w = x
    · subst hwx
      have hwc : w ∉ (c.under y).ids := fun h => hw (by simp [(c.under_sublist y).subset h])
      have hws : w ∉ (s.under y).ids := fun h => hw (by simp [(s.under_sublist y).subset h])
      rw [erase,if_pos rfl,under_append,under,if_neg (Ne.symm hne)]
      split
      · rw [erase_of_not_mem hwc]
      · rw [erase_of_not_mem hws]
    · rw [erase,if_neg hwx]
      by_cases hwy : w = y
      · simp [under,hwy]
      · have hyc : y ∈ (c.erase x).ids ↔ y ∈ c.ids := by
          rw [ids_erase hc,hc.mem_erase_iff]
          simp [hne]
        rw [under,if_neg hwy,under,if_neg hwy,ihc hc,ihs hs]
        by_cases h : y ∈ c.ids
        · rw [if_pos (hyc.mpr h),if_pos h]
        · rw [if_neg fun h' => h (hyc.mp h'),if_neg h]

theorem under_insert {p x y : ι} (hnd : f.ids.Nodup) (hp : p ∈ f.ids) (hne : y ≠ x) :
    (f.insert p x).under y = if y = p then cons x nil (f.under p) else (f.under y).insert p x := by
  induction f with
  | nil => simp at hp
  | cons w c s ihc ihs =>
    obtain ⟨hw,hcs⟩ := List.nodup_cons.mp hnd
    obtain ⟨hc,hs,hdis⟩ := List.nodup_append.mp hcs
    by_cases hwp : w = p
    · subst hwp
      have hwc : w ∉ (c.under y).ids := fun h => hw (by simp [(c.under_sublist y).subset h])
      have hws : w ∉ (s.under y).ids := fun h => hw (by simp [(s.under_sublist y).subset h])
      rw [insert,if_pos rfl]
      by_cases hyw : y = w
      · simp [under,hyw]
      · by_cases hyc : y ∈ c.ids
        · simp [under,hyw,Ne.symm hyw,hyc,hne,Ne.symm hne,insert_of_not_mem hwc]
        · simp [under,hyw,Ne.symm hyw,hyc,hne,insert_of_not_mem hws]
    · have hpcs : p ∈ c.ids ∨ p ∈ s.ids := by
        simp only [ids_cons,mem_cons,mem_append] at hp
        exact hp.resolve_left (Ne.symm hwp)
      rw [insert,if_neg hwp]
      by_cases hwy : w = y
      · simp [under,hwy,hwy ▸ hwp]
      · have hyc : y ∈ (c.insert p x).ids ↔ y ∈ c.ids := by
          by_cases hpc : p ∈ c.ids
          · rw [(ids_insert hc hpc).mem_iff]
            simp [hne]
          · rw [insert_of_not_mem hpc]
        simp only [under,if_neg hwy,if_neg hwp,hyc]
        rcases hpcs with hpc | hps
        · have hps : p ∉ s.ids := fun h => hdis p hpc p h rfl
          simp only [if_pos hpc,insert_of_not_mem hps,ihc hc hpc]
          by_cases h : y ∈ c.ids
          · simp only [if_pos h]
          · have hyp : y ≠ p := fun h' => h (h' ▸ hpc)
            have hpu : p ∉ (s.under y).ids := fun h' => hps ((s.under_sublist y).subset h')
            simp only [if_neg h,if_neg hyp,insert_of_not_mem hpu]
        · have hpc : p ∉ c.ids := fun h => hdis p h p hps rfl
          simp only [if_neg hpc,insert_of_not_mem hpc,ihs hs hps]
          by_cases h : y ∈ c.ids
          · have hyp : y ≠ p := fun h' => hpc (h' ▸ h)
            have hpu : p ∉ (c.under y).ids := fun h' => hpc ((c.under_sublist y).subset h')
            simp only [if_pos h,if_neg hyp,insert_of_not_mem hpu]
          · simp only [if_neg h]

end Forest

end Condor.Lib
