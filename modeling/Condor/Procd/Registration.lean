import Condor.Procd.Snapshot

/-!
# Registering a family

A new family becomes a child of the family that its root process is in, and the root process moves
to it. What the families above report stays the same.
-/

namespace Condor.Procd.Monitor

open Condor.Lib List Function Option

variable {m m' : Monitor} {F : Forest Nat} {L : Nat → List Nat} {ps : List ProcInfo}

def registered (m : Monitor) (fam : ProcFamily) (parent : Nat) : Monitor :=
  { m.newFamily fam with
    pidTracker := ((fam.rootPid,fam.rootBirthday),m.nextFamily) :: m.pidTracker
    links := m.links.addChild parent m.nextFamily
    familyTable := update m.familyTable fam.rootPid (some m.nextFamily) }

private theorem TreeShape.next_not_mem (h : TreeShape m F) : m.nextFamily ∉ F.ids := fun hin =>
  Nat.lt_irrefl _ (h.fresh _ ((h.families _).mpr (.inl hin)))

private theorem TreeShape.next_ne (h : TreeShape m F) {g : Nat} (hg : g ∈ F.ids) :
    g ≠ m.nextFamily :=
  fun he => h.next_not_mem (he ▸ hg)

private theorem TreeShape.next_families (h : TreeShape m F) : m.families m.nextFamily = none := by
  cases hf : m.families m.nextFamily with
  | none => rfl
  | some fam => exact absurd (h.fresh _ (by simp [hf])) (Nat.lt_irrefl _)

theorem TreeShape.mem_insert (h : TreeShape m F) {p z : Nat} (hp : p ∈ F.ids) :
    z ∈ (F.insert p m.nextFamily).ids ↔ z = m.nextFamily ∨ z ∈ F.ids := by
  rw [(Forest.ids_insert h.nodup hp).mem_iff,mem_cons]

private theorem TreeShape.registered (h : TreeShape m F) {p : Nat} {fam : ProcFamily}
    (hp : p ∈ F.ids)
    (ht : m.familyTable fam.rootPid = none) (hr : fam.rootPid ≠ 0) :
    TreeShape (m.registered fam p) (F.insert p m.nextFamily) := by
  have hnew := h.next_not_mem
  have hne : m.everybodyElse ≠ m.nextFamily := by
    intro he
    have := h.fresh _ ((h.families _).mpr (.inr rfl))
    omega
  have hfam : ∀ z, z ≠ m.nextFamily → (m.registered fam p).families z = m.families z := fun z hz =>
    update_of_ne hz _ _
  have hfamnew : (m.registered fam p).families m.nextFamily = some fam := update_self ..
  constructor
  · exact h.holds.addChild h.nodup hp hnew
  · obtain ⟨C,hF⟩ := h.eq_cons
    rw [hF]
    by_cases hpt : m.tree = p
    · simp [Forest.insert,hpt,Forest.roots,Monitor.registered,newFamily]
    · simp [Forest.insert,hpt,Forest.roots,Monitor.registered,newFamily]
  · rw [(Forest.ids_insert h.nodup hp).nodup_iff]
    exact List.nodup_cons.mpr ⟨hnew,h.nodup⟩
  · intro z
    rw [h.mem_insert hp]
    by_cases hz : z = m.nextFamily
    · subst hz
      simp [hfamnew]
    · rw [hfam z hz,h.families z]
      simp [hz,Monitor.registered,newFamily]
  · rw [h.mem_insert hp,not_or]
    exact ⟨hne,h.everybodyElse⟩
  · intro pid z
    rw [h.mem_insert hp]
    have htab := h.table pid z
    by_cases hpid : pid = fam.rootPid
    · subst hpid
      by_cases hz : z = m.nextFamily
      · simp [Monitor.registered,hz,newFamily]
      · rw [hfam z hz]
        rw [ht] at htab
        simpa [Monitor.registered,hz,Ne.symm hz] using htab
    · have hold : (m.registered fam p).familyTable pid = m.familyTable pid :=
        update_of_ne hpid _ _
      rw [hold,htab]
      by_cases hz : z = m.nextFamily
      · subst hz
        simp [hfamnew,hnew,Ne.symm hpid]
      · rw [hfam z hz]
        simp [hz]
  · intro z hz
    rcases (h.mem_insert hp).mp hz with rfl | hz
    · simpa [hfamnew] using hr
    · rw [hfam z (h.next_ne hz)]
      exact h.rootPid z hz
  · rw [show (m.registered fam p).everybodyElse = m.everybodyElse from rfl,hfam _ hne]
    exact h.elseRoot
  · intro z hz
    have hnext : (m.registered fam p).nextFamily = m.nextFamily + 1 := rfl
    by_cases hzn : z = m.nextFamily
    · omega
    · rw [hfam z hzn] at hz
      have := h.fresh z hz
      omega

private theorem Shape.next_list (h : Shape m F L) : L m.nextFamily = [] := by
  rw [eq_nil_iff_forall_not_mem]
  intro x hx
  obtain ⟨c,hc,hf⟩ := (h.members.mem _ x).mp hx
  have hhome := h.home x c hc
  rw [hf,h.tree.next_families] at hhome
  simp at hhome

private theorem Shape.registered (h : Shape m F L) {p : Nat} (fam : ProcFamily) (hp : p ∈ F.ids)
    (ht : m.familyTable fam.rootPid = none) (hr : fam.rootPid ≠ 0) :
    Shape (m.registered fam p) (F.insert p m.nextFamily) L := by
  have hnil := h.next_list
  refine ⟨h.tree.registered hp ht hr,⟨?_,h.members.nodup,h.members.mem,h.members.table,
    h.members.fresh⟩,?_⟩
  · intro z
    by_cases hz : z = m.nextFamily
    · simp [Monitor.registered,newFamily,hz,hnil,Neighbours.Holds,Neighbours.Walk]
    · simpa [Monitor.registered,newFamily,hz] using h.members.chain z
  · intro x c hc
    have hhome := h.home x c hc
    by_cases hz : c.family = m.nextFamily
    · simp [Monitor.registered,newFamily,hz]
    · simpa [Monitor.registered,newFamily,hz] using hhome

private theorem Shape.load_registered (h : Shape m F L) (k : Gauge) {p : Nat} {fam : ProcFamily}
    (hfam : k.exited fam = 0) (z : Nat) : load k (m.registered fam p) L z = load k m L z := by
  by_cases hz : z = m.nextFamily
  · subst hz
    simp [load,h.next_list,h.tree.next_families,Monitor.registered,newFamily,hfam]
  · apply load_congr
    · rfl
    · intro x _
      rfl
    · exact update_of_ne hz _ _

private theorem Shape.covered_insert (h : Shape m F L) {p z : Nat} (hp : p ∈ F.ids)
    (hz : z ∈ F.ids) :
    (covered (F.insert p m.nextFamily) z).Perm (covered F z) ∨
      (covered (F.insert p m.nextFamily) z).Perm (m.nextFamily :: covered F z) := by
  unfold covered
  rw [Forest.under_insert h.tree.nodup hp (h.tree.next_ne hz)]
  by_cases hzp : z = p
  · subst hzp
    right
    simp only [if_true,Forest.ids_cons,Forest.ids_nil,nil_append]
    exact List.Perm.swap _ _ _
  · simp only [if_neg hzp]
    by_cases hpz : p ∈ (F.under z).ids
    · right
      have hperm := Forest.ids_insert (x := m.nextFamily)
        (h.tree.nodup.sublist (F.under_sublist z)) hpz
      exact (hperm.cons z).trans (List.Perm.swap _ _ _)
    · left
      rw [Forest.insert_of_not_mem hpz]

private theorem Shape.total_registered (h : Shape m F L) (k : Gauge) {p z : Nat} (fam : ProcFamily)
    (hp : p ∈ F.ids) (hfam : k.exited fam = 0) (hz : z ∈ F.ids) :
    total k (m.registered fam p) L (F.insert p m.nextFamily) z = total k m L F z := by
  have hload : load k (m.registered fam p) L = load k m L :=
    funext fun y => h.load_registered k hfam y
  have hnew : load k m L m.nextFamily = 0 := by
    simp [load,h.next_list,h.tree.next_families]
  unfold total
  rw [hload]
  rcases h.covered_insert hp hz with hperm | hperm
  · exact (hperm.map _).sum_eq
  · rw [(hperm.map _).sum_eq,map_cons,sum_cons,hnew,Nat.zero_add]

theorem Complete.moved (h : Complete ps m) {x g : Nat} {c : ProcFamilyMember}
    (hc : m.members x = some c)
    (hm : m'.members = update m.members x (some { c with family := g })) :
    Complete ps m' := by
  apply h.congr
  intro y
  by_cases hy : y = x
  · simp [hm,hy,hc]
  · simp [hm,hy]

private theorem Tracked.registered (h : Tracked m F) (hs : TreeShape m F) {p : Nat}
    (fam : ProcFamily)
    (hp : p ∈ F.ids) : Tracked (m.registered fam p) (F.insert p m.nextFamily) where
  valid t z hz := by
    rw [hs.mem_insert hp]
    have hold : z ∈ m.pointers t → z ∈ F.ids := h.valid t z
    cases t with
    | pid =>
      rcases List.mem_cons.mp hz with hz | hz
      · exact .inl hz
      · exact .inr (hold hz)
    | login | environment | group => exact .inr (hold hz)
  nodup := List.nodup_cons.mpr ⟨fun hin => hs.next_not_mem (h.valid .pid _ hin),h.nodup⟩

theorem Shape.createFamily (h : Shape m F L) (hcomp : Complete ps m) {x : Nat}
    {c : ProcFamilyMember} (rootPid watcherPid : Pid) (hc : m.members x = some c)
    (hne : c.family ≠ m.everybodyElse) (ht : m.familyTable rootPid = none) (hr : rootPid ≠ 0) :
    ∃ m' F' L', m.createFamily x c rootPid watcherPid = some m' ∧ Stepped ps m F L m' F' L' ∧
      (Tracked m F → Tracked m' F') := by
  have hp := h.mem_ids hc hne
  have hpn := h.tree.next_ne hp
  obtain ⟨par,hpar⟩ := h.tree.exists_family hp
  generalize hfam : (⟨rootPid,c.procInfo.birthday,watcherPid,0,0⟩ : ProcFamily) = fam
  have hreg := h.registered fam hp (by rw [← hfam]; exact ht)
    (by rw [← hfam]; exact hr)
  have hcr : (m.registered fam c.family).members x = some c := hc
  obtain ⟨m',as,bs,hrun,hL,hm',hshape⟩ := hreg.moveToSubfamily (g := m.nextFamily) hcr
    (by simp [Monitor.registered,newFamily]) (Ne.symm hpn)
  have hunder : m.nextFamily ∈ ((F.insert c.family m.nextFamily).under c.family).ids := by
    rw [Forest.under_insert h.tree.nodup hp hpn]
    simp
  have hchain := h.members.chain c.family
  rw [hL] at hchain
  subst hm'
  refine ⟨_,_,_,?_,⟨hshape,?_,rfl,rfl,Nat.le_succ _,?_,?_,?_,?_⟩,?_⟩
  · -- the table comes last in the code, which makes no difference to the member
    have hpar' : (m.newFamily fam).families c.family = some par := by
      simpa [newFamily,hpn] using hpar
    have hlook : m.familyTable par.rootPid = some c.family := h.tree.lookup hp hpar
    simp only [Monitor.createFamily,hfam,hpar',bind_eq_bind,bind_some,lookupFamily,
      Bool.false_and,Bool.false_eq_true,if_false]
    simp only [newFamily,hlook,bind_some,Monitor.moveToSubfamily,hc,hchain.around.1,
      hchain.around.2]
    rw [← hfam]
    rfl
  · exact hcomp.moved hc rfl
  · intro z hz
    rcases (h.tree.mem_insert hp).mp hz with rfl | hz
    · exact .inr (Nat.le_refl _)
    · exact .inl hz
  · intro z hz _
    have hzn := h.tree.next_ne hz
    simp [relinked,unlinked,Monitor.registered,newFamily,hzn]
  · intro _ k z hk hz _
    rw [← h.total_registered k fam hp (by cases k <;> simp [Gauge.exited,← hfam]) hz]
    exact total_relinked hreg.tree.nodup k hcr hL hunder _ _ z
  · intro t ht
    cases t with
    | pid => exact absurd rfl ht
    | login | environment | group => exact List.Subset.refl _
  · intro htr
    exact (htr.registered h.tree fam hp).congr fun t => by cases t <;> rfl

end Condor.Procd.Monitor
