import Mathlib.Algebra.Order.BigOperators.Group.List
import Mathlib.Algebra.Order.Ring.Nat
import Condor.Procd.Shape

/-!
# What a family and its subfamilies have used

The total of a family is the sum over the tree below it. A process that moves to a subfamily stays
in the same sums, and so does what an unregistered family leaves.
-/

namespace Condor.Procd.Monitor

open Condor.Lib List Function Option

variable {m m' : Monitor} {F : Forest Nat} {L : Nat → List Nat}

def covered (F : Forest Nat) (g : Nat) : List Nat := g :: (F.under g).ids

def total (k : Gauge) (m : Monitor) (L : Nat → List Nat) (F : Forest Nat) (g : Nat) : Nat :=
  ((covered F g).map (load k m L)).sum

theorem mem_covered_self (F : Forest Nat) (g : Nat) : g ∈ covered F g := mem_cons_self

theorem covered_nodup (hnd : F.ids.Nodup) (g : Nat) : (covered F g).Nodup :=
  List.nodup_cons.mpr ⟨Forest.not_mem_under hnd,hnd.sublist (F.under_sublist g)⟩

theorem covered_subset {g : Nat} (hg : g ∈ F.ids) : covered F g ⊆ F.ids :=
  (Forest.cons_under_sublist hg).subset

theorem mem_covered_of_under (hnd : F.ids.Nodup) {g h z : Nat} (hh : h ∈ covered F g)
    (hz : z ∈ (F.under h).ids) : z ∈ covered F g := by
  rcases List.mem_cons.mp hh with rfl | hh
  · exact mem_cons_of_mem h hz
  · exact mem_cons_of_mem g (Forest.mem_under_trans hnd hh hz)

private theorem sum_add_ite (f : Nat → Nat) (a t : Nat) (zs : List Nat) :
    (zs.map fun z => f z + if z = a then t else 0).sum = (zs.map f).sum + zs.count a * t := by
  induction zs with
  | nil => simp
  | cons z zs ih =>
    rw [map_cons,sum_cons,ih,map_cons,sum_cons,List.count_cons]
    by_cases hz : z = a
    · simp only [hz,if_true,beq_self_eq_true,Nat.add_mul,Nat.one_mul]
      omega
    · simp only [hz,if_false,beq_iff_eq,Nat.add_zero]
      omega

theorem total_congr {k : Gauge} {L' : Nat → List Nat} {g : Nat} (hg : g ∈ F.ids)
    (h : ∀ z ∈ F.ids, load k m' L' z = load k m L z) : total k m' L' F g = total k m L F g := by
  unfold total
  rw [map_congr_left fun z hz => h z (covered_subset hg hz)]

theorem total_mono {k : Gauge} {L' : Nat → List Nat} {g : Nat} (hg : g ∈ F.ids)
    (h : ∀ z ∈ F.ids, load k m L z ≤ load k m' L' z) : total k m L F g ≤ total k m' L' F g :=
  sum_le_sum fun z hz => h z (covered_subset hg hz)

theorem MemberShape.load_added (h : MemberShape m L) (k : Gauge) (g : Nat) (pi : ProcInfo)
    (z : Nat) :
    load k (m.added g pi) (update L g (m.nextMember :: L g)) z =
      load k m L z + if z = g then k.live pi else 0 := by
  have hold : ∀ z, ∀ x ∈ L z, memberLoad k (m.added g pi) x = memberLoad k m x := by
    intro z x hx
    obtain ⟨c,hc,-⟩ := (h.mem z x).mp hx
    have hne : x ≠ m.nextMember := Nat.ne_of_lt (h.fresh x c hc)
    simp [memberLoad,Monitor.added,hne]
  by_cases hz : z = g
  · subst hz
    have hnew : memberLoad k (m.added z pi) m.nextMember = k.live pi := by
      simp [memberLoad,Monitor.added]
    simp only [load,update_self,map_cons,sum_cons,hnew,
      map_congr_left (hold z),if_true]
    rw [show (m.added z pi).families z = m.families z from rfl]
    omega
  · rw [if_neg hz,Nat.add_zero]
    exact load_congr k (update_of_ne hz _ _) (hold z) rfl

private theorem load_relinked (k : Gauge) {x g : Nat} {as bs : List Nat}
    {c : ProcFamilyMember} (hc : m.members x = some c) (hL : L c.family = as ++ x :: bs)
    (hg : g ≠ c.family) (b n : Option Nat) (z : Nat) :
    load k ((m.unlinked c.family b n).relinked x c g)
        (update (update L c.family (as ++ bs)) g (x :: L g)) z +
      (if z = c.family then k.live c.procInfo else 0) =
    load k m L z + if z = g then k.live c.procInfo else 0 := by
  have hmem : ∀ y, memberLoad k ((m.unlinked c.family b n).relinked x c g) y = memberLoad k m
    y := by
    intro y
    by_cases hy : y = x
    · simp [memberLoad,Monitor.relinked,hy,hc]
    · simp [memberLoad,Monitor.relinked,unlinked,hy]
  have hx : memberLoad k m x = k.live c.procInfo := by simp [memberLoad,hc]
  have hfam : ((m.unlinked c.family b n).relinked x c g).families = m.families := rfl
  unfold load
  rw [hfam,map_congr_left fun y _ => hmem y]
  by_cases hzg : z = g
  · subst hzg
    simp only [update_self,map_cons,sum_cons,hx,if_neg hg,if_true]
    omega
  · by_cases hzc : z = c.family
    · subst hzc
      simp only [update_of_ne hzg,update_self,hL,map_append,sum_append,
        map_cons,sum_cons,hx,if_neg hzg,if_true]
      omega
    · simp only [update_of_ne hzg,update_of_ne hzc,if_neg hzg,if_neg hzc]

theorem total_relinked (hnd : F.ids.Nodup) (k : Gauge) {x g : Nat} {as bs : List Nat}
    {c : ProcFamilyMember} (hc : m.members x = some c)
    (hL : L c.family = as ++ x :: bs) (hg : g ∈ (F.under c.family).ids) (b n : Option Nat)
    (z : Nat) :
    total k m L F z ≤ total k ((m.unlinked c.family b n).relinked x c g)
      (update (update L c.family (as ++ bs)) g (x :: L g)) F z := by
  have hne : g ≠ c.family := fun hgc => Forest.not_mem_under hnd (hgc ▸ hg)
  have heq := congrArg List.sum (map_congr_left (l := covered F z)
    fun y _ => load_relinked k hc hL hne b n y)
  rw [sum_add_ite,sum_add_ite] at heq
  have hcount : (covered F z).count c.family ≤ (covered F z).count g := by
    by_cases hcz : c.family ∈ covered F z
    · have hgz := mem_covered_of_under hnd hcz hg
      have h1 := List.nodup_iff_count_le_one.mp (covered_nodup hnd z) c.family
      have h2 := List.count_pos_iff.mpr hgz
      omega
    · simp [count_eq_zero_of_not_mem hcz]
  have hmul := Nat.mul_le_mul_right (k.live c.procInfo) hcount
  unfold total
  omega

theorem Unregistered.load {g p : Nat} (h : Unregistered m m' F L g p) (hgp : g ≠ p) (k : Gauge)
    {z : Nat} (hz : z ≠ g) :
    load k m' (foldedLists L g p) z = load k m L z + if z = p then load k m L g else 0 := by
  obtain ⟨fam,par,hfam,hpar,hfams⟩ := h.families
  have hmem : ∀ y, memberLoad k m' y = memberLoad k m y := by
    intro y
    unfold memberLoad
    rw [h.members y]
    cases m.members y with
    | none => rfl
    | some c =>
      simp only [map_some,elim_some]
      split <;> rfl
  unfold Monitor.load
  rw [map_congr_left fun y _ => hmem y,hfams,update_of_ne hz]
  by_cases hzp : z = p
  · subst hzp
    have hfold : foldedLists L g z z = L g ++ L z := by simp [foldedLists,Ne.symm hgp]
    have hex : ((m.inherited z par fam).families z).elim 0 k.exited =
        k.exited par + k.exited fam := by
      cases k <;> simp [inherited,Gauge.exited]
    rw [hfold,hex,hfam,hpar,map_append,sum_append,if_pos rfl]
    simp only [elim_some]
    omega
  · have hfold : foldedLists L g p z = L z := by simp [foldedLists,hz,hzp]
    rw [hfold,if_neg hzp,Nat.add_zero]
    simp [inherited,hzp]

theorem Shape.mem_covered_iff (h : Shape m F L) {g p z : Nat}
    (hpar : m.links.parent g = some p)
    (hroot : g ∈ (F.under p).roots) (hz : z ∈ F.ids) (hne : z ≠ g) :
    p ∈ covered F z ↔ g ∈ covered F z := by
  constructor
  · intro hp
    exact mem_covered_of_under h.tree.nodup hp (Forest.mem_ids_of_mem_roots hroot)
  · intro hg
    have hgu : g ∈ (F.under z).ids := by
      rcases List.mem_cons.mp hg with hg | hg
      · exact absurd hg.symm hne
      · exact hg
    have hsub := h.tree.holds.under hz
    rcases hsub.parent_cases (h.tree.nodup.sublist (F.under_sublist z)) hgu with
      ⟨-,hp⟩ | ⟨y,hy,hp,-⟩
    · obtain rfl : p = z := some.inj (hpar.symm.trans hp)
      exact mem_covered_self F p
    · obtain rfl : p = y := some.inj (hpar.symm.trans hp)
      exact mem_cons_of_mem z hy

theorem Unregistered.total {g p : Nat} (h : Unregistered m m' F L g p) (hs : Shape m F L)
    (hpar : m.links.parent g = some p) (k : Gauge) {z : Nat} (hz : z ∈ F.ids) (hne : z ≠ g) :
    total k m' (foldedLists L g p) (F.erase g) z = total k m L F z := by
  have hnd := hs.tree.nodup
  have hgp : g ≠ p := by
    rintro rfl
    exact Forest.not_mem_under hnd (Forest.mem_ids_of_mem_roots h.root)
  have hcov : covered (F.erase g) z = (covered F z).erase g := by
    unfold covered
    rw [Forest.under_erase hnd hne,Forest.ids_erase (hnd.sublist (F.under_sublist z)),
      erase_cons_tail (by simpa using hne)]
  have hiff := hs.mem_covered_iff hpar h.root hz hne
  have hcnd := covered_nodup hnd z
  unfold Monitor.total
  rw [hcov]
  have heq : ((covered F z).erase g).map (Monitor.load k m' (foldedLists L g p)) =
      ((covered F z).erase g).map fun y => Monitor.load k m L y +
        if y = p then Monitor.load k m L g else 0 :=
    map_congr_left fun y hy => h.load hgp k (hcnd.mem_erase_iff.mp hy).1
  rw [heq,sum_add_ite]
  by_cases hgz : g ∈ covered F z
  · have hpz : p ∈ (covered F z).erase g := hcnd.mem_erase_iff.mpr ⟨Ne.symm hgp,hiff.mpr hgz⟩
    have hcount : ((covered F z).erase g).count p = 1 :=
      count_eq_one_of_mem (hcnd.erase g) hpz
    have hperm := ((perm_cons_erase hgz).map (Monitor.load k m L)).sum_eq
    rw [map_cons,sum_cons] at hperm
    rw [hcount]
    omega
  · have hpz : p ∉ covered F z := fun hp => hgz (hiff.mp hp)
    rw [List.erase_of_not_mem hgz,count_eq_zero_of_not_mem hpz]
    omega

end Condor.Procd.Monitor
