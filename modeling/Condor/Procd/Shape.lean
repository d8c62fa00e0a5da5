import Condor.Procd.Exits

/-!
# The tree of families

The tree holds each family but everybody else once, the table leads from its root pid to it, and
each member is in a family that exists. Registering and unregistering keep this.
-/

namespace Condor.Procd.Monitor

open Condor.Lib List Function Option

structure TreeShape (m : Monitor) (F : Forest Nat) : Prop where
  holds : m.links.Holds none (some m.tree) F
  roots : F.roots = [m.tree]
  nodup : F.ids.Nodup
  families : ∀ g, (m.families g).isSome = true ↔ g ∈ F.ids ∨ g = m.everybodyElse
  everybodyElse : m.everybodyElse ∉ F.ids
  table : ∀ pid g, m.familyTable pid = some g ↔
    g ∈ F.ids ∧ (m.families g).map ProcFamily.rootPid = some pid
  rootPid : ∀ g ∈ F.ids, (m.families g).map ProcFamily.rootPid ≠ some 0
  elseRoot : (m.families m.everybodyElse).map ProcFamily.rootPid = some 0
  fresh : ∀ g, (m.families g).isSome = true → g < m.nextFamily

/-- The families are the forest `F`, and `g` has the members `L g`. -/
structure Shape (m : Monitor) (F : Forest Nat) (L : Nat → List Nat) : Prop where
  tree : TreeShape m F
  members : MemberShape m L
  home : ∀ x c, m.members x = some c → (m.families c.family).isSome = true

variable {m m' : Monitor} {F : Forest Nat} {L : Nat → List Nat}

theorem SameTree.isSome (h : SameTree m m') (g : Nat) :
    (m'.families g).isSome = (m.families g).isSome := by
  rw [← isSome_map,h.families g,isSome_map]

theorem SameTree.rootPid (h : SameTree m m') (g : Nat) :
    (m'.families g).map ProcFamily.rootPid = (m.families g).map ProcFamily.rootPid := by
  have hmap := congrArg (Option.map Prod.fst) (h.families g)
  simpa [Option.map_map,comp_def] using hmap

theorem TreeShape.congr (h : TreeShape m F) (hs : SameTree m m') : TreeShape m' F where
  holds := by
    rw [hs.links,hs.tree]
    exact h.holds
  roots := by
    rw [hs.tree]
    exact h.roots
  nodup := h.nodup
  families g := by
    rw [hs.isSome,hs.everybodyElse]
    exact h.families g
  everybodyElse := by
    rw [hs.everybodyElse]
    exact h.everybodyElse
  table pid g := by
    rw [hs.familyTable,hs.rootPid]
    exact h.table pid g
  rootPid g hg := by
    rw [hs.rootPid]
    exact h.rootPid g hg
  elseRoot := by
    rw [hs.everybodyElse,hs.rootPid]
    exact h.elseRoot
  fresh g hg := by
    rw [hs.nextFamily]
    rw [hs.isSome] at hg
    exact h.fresh g hg

theorem TreeShape.length_lt (h : TreeShape m F) : F.ids.length < m.nextFamily := by
  have hnd : (m.everybodyElse :: F.ids).Nodup := List.nodup_cons.mpr ⟨h.everybodyElse,h.nodup⟩
  have hsub : m.everybodyElse :: F.ids ⊆ List.range m.nextFamily := by
    intro g hg
    refine List.mem_range.mpr (h.fresh g ((h.families g).mpr ?_))
    rcases List.mem_cons.mp hg with hg | hg
    · exact .inr hg
    · exact .inl hg
  simpa [Nat.succ_le_iff] using (subperm_of_subset hnd hsub).length_le

theorem TreeShape.tree_mem (h : TreeShape m F) : m.tree ∈ F.ids := by
  apply Forest.mem_ids_of_mem_roots
  simp [h.roots]

variable {g : Nat}

theorem TreeShape.exists_family (h : TreeShape m F) (hg : g ∈ F.ids) :
    ∃ fam, m.families g = some fam :=
  Option.isSome_iff_exists.mp ((h.families g).mpr (.inl hg))

theorem TreeShape.lookup (h : TreeShape m F) {fam : ProcFamily} (hg : g ∈ F.ids)
    (hfam : m.families g = some fam) : m.familyTable fam.rootPid = some g :=
  (h.table _ _).mpr ⟨hg,by simp [hfam]⟩

theorem TreeShape.parent_cases (h : TreeShape m F) (hg : g ∈ F.ids) :
    (g = m.tree ∧ m.links.parent g = none) ∨
      ∃ p ∈ F.ids, m.links.parent g = some p ∧ g ∈ (F.under p).roots := by
  rcases h.holds.parent_cases h.nodup hg with ⟨hr,hp⟩ | hp
  · rw [h.roots,mem_singleton] at hr
    exact .inl ⟨hr,hp⟩
  · exact .inr hp

theorem Shape.mem_ids (h : Shape m F L) {x : Nat} {c : ProcFamilyMember}
    (hc : m.members x = some c) (hne : c.family ≠ m.everybodyElse) : c.family ∈ F.ids :=
  ((h.tree.families _).mp (h.home x c hc)).resolve_right hne

theorem Shape.added (h : Shape m F L) {pi : ProcInfo}
    (hpi : m.memberTable pi.pid = none) (hg : (m.families g).isSome = true) :
    Shape (m.added g pi) F (update L g (m.nextMember :: L g)) := by
  refine ⟨h.tree.congr (added_sameTree m g pi),h.members.added hpi,fun x c hc => ?_⟩
  by_cases hx : x = m.nextMember
  · obtain rfl : (⟨g,pi,false⟩ : ProcFamilyMember) = c := by
      simpa [Monitor.added,hx] using hc
    exact hg
  · exact h.home x c (by simpa [Monitor.added,hx] using hc)

theorem Shape.setMember (h : Shape m F L) {x : Nat} {c d : ProcFamilyMember}
    (hc : m.members x = some c) (hf : d.family = c.family)
    (hp : d.procInfo.pid = c.procInfo.pid) : Shape (m.setMember x d) F L := by
  refine ⟨h.tree.congr (setMember_sameTree m x d),h.members.setMember hc hf hp,fun y e he => ?_⟩
  by_cases hy : y = x
  · obtain rfl : d = e := by simpa [Monitor.setMember,hy] using he
    rw [hf]
    exact h.home x c hc
  · exact h.home y e (by simpa [Monitor.setMember,hy] using he)

theorem Shape.moveToSubfamily (h : Shape m F L) {x g : Nat} {c : ProcFamilyMember}
    (hc : m.members x = some c) (hg : (m.families g).isSome = true) (hne : g ≠ c.family) :
    ∃ m' as bs, m.moveToSubfamily x g = some m' ∧ L c.family = as ++ x :: bs ∧
      m' = (m.unlinked c.family as.getLast? bs.head?).relinked x c g ∧
      Shape m' F (update (update L c.family (as ++ bs)) g (x :: L g)) := by
  obtain ⟨as,bs,hL⟩ := append_of_mem ((h.members.mem c.family x).mpr ⟨c,hc,rfl⟩)
  have hchain := h.members.chain c.family
  rw [hL] at hchain
  refine ⟨_,as,bs,?_,hL,rfl,h.tree.congr (relinked_sameTree m x c c.family g _ _),
    h.members.relinked hc hL hne,fun y d hd => ?_⟩
  · simp only [Monitor.moveToSubfamily,hc,bind_eq_bind,bind_some,hchain.around.1,
      hchain.around.2]
  · by_cases hy : y = x
    · obtain rfl : { c with family := g } = d := by
        simpa [Monitor.relinked,hy] using hd
      exact hg
    · exact h.home y d (by simpa [Monitor.relinked,unlinked,hy] using hd)

private theorem erase_roots {F : Forest Nat} {t g : Nat} (h : F.roots = [t]) (hg : g ≠ t) :
    (F.erase g).roots = [t] := by
  cases F with
  | nil => simp [Forest.roots] at h
  | cons y c s =>
    simp only [Forest.roots,List.cons.injEq] at h
    obtain ⟨rfl,hs⟩ := h
    cases s with
    | nil => simp [Forest.erase,Ne.symm hg,Forest.roots]
    | cons z d u => simp [Forest.roots] at hs

theorem mem_erase_ids {F : Forest Nat} {g z : Nat} (hnd : F.ids.Nodup) :
    z ∈ (F.erase g).ids ↔ z ≠ g ∧ z ∈ F.ids := by
  rw [Forest.ids_erase hnd,hnd.mem_erase_iff]

structure Unregistered (m m' : Monitor) (F : Forest Nat) (L : Nat → List Nat) (g p : Nat) :
    Prop where
  shape : Shape m' (F.erase g) (foldedLists L g p)
  parent_mem : p ∈ F.ids
  root : g ∈ (F.under p).roots
  removed : TreeLinks.Removed m.links m'.links g (F.under g) F.ids
  families : ∃ fam par, m.families g = some fam ∧ m.families p = some par ∧
    m'.families = update (m.inherited p par fam).families g none
  members : ∀ x, m'.members x =
    (m.members x).map fun c => if c.family = g then { c with family := p } else c
  tree : m'.tree = m.tree
  everybodyElse : m'.everybodyElse = m.everybodyElse
  nextFamily : m'.nextFamily = m.nextFamily
  pidTracker : m'.pidTracker = removeMapping g m.pidTracker
  loginTracker : m'.loginTracker = removeMapping g m.loginTracker
  environmentTracker : m'.environmentTracker = removeMapping g m.environmentTracker
  groupTracker : m'.groupTracker = m.groupTracker.map fun pool => pool.free g

theorem Shape.unregisterNode (h : Shape m F L) (hg : g ∈ F.ids) (hne : g ≠ m.tree) :
    ∃ m' p, m.unregisterNode g = some m' ∧ m.links.parent g = some p ∧
      Unregistered m m' F L g p := by
  obtain ⟨fam,hfam⟩ := h.tree.exists_family hg
  rcases h.tree.parent_cases hg with ⟨hroot,-⟩ | ⟨p,hp,hpar,hroot⟩
  · exact absurd hroot hne
  obtain ⟨par,hparf⟩ := h.tree.exists_family hp
  have hgp : g ≠ p := by
    rintro rfl
    exact Forest.not_mem_under h.tree.nodup (Forest.mem_ids_of_mem_roots hroot)
  -- the trackers and the table change first
  generalize hm1 : ({ m with
    pidTracker := removeMapping g m.pidTracker
    groupTracker := m.groupTracker.map fun pool : GIDPool => pool.free g
    loginTracker := removeMapping g m.loginTracker
    environmentTracker := removeMapping g m.environmentTracker
    familyTable := update m.familyTable fam.rootPid none } : Monitor) = m1
  have hmem1 : MemberShape m1 L := by
    subst hm1
    exact ⟨h.members.chain,h.members.nodup,h.members.mem,h.members.table,h.members.fresh⟩
  have hf1 : m1.families = m.families := by rw [← hm1]
  obtain ⟨m2,hfold,hsame,hmem2,hfam2,hmembers⟩ :=
    hmem1.foldIntoParent (hf1 ▸ hfam) (hf1 ▸ hparf) hgp
  have hlinks : m2.links = m.links := by rw [hsame.links,← hm1]
  have hnext : m2.nextFamily = m.nextFamily := by rw [hsame.nextFamily,← hm1]
  have htree : m2.tree = m.tree := by rw [hsame.tree,← hm1]
  have helse : m2.everybodyElse = m.everybodyElse := by rw [hsame.everybodyElse,← hm1]
  have htab : m2.familyTable = update m.familyTable fam.rootPid none := by
    rw [hsame.familyTable,← hm1]
  obtain ⟨links,hrem,hremoved⟩ := h.tree.holds.remove_spec
    (n := m.nextFamily) h.tree.nodup hg hp hpar
    hroot h.tree.length_lt
  refine ⟨{ m2 with links := links, families := update m2.families g none },p,?_,hpar,?_⟩
  · simp only [Monitor.unregisterNode,bind_eq_bind,hfam,bind_some,
      h.tree.lookup hg hfam,
      hpar,hm1,hfold,hlinks,hnext,hrem]
  have hfam3 : update m2.families g none =
      update (m.inherited p par fam).families g none := by
    rw [hfam2]
    simp only [inherited,hf1]
  have hkeys : ∀ z, z ≠ g → ((update m2.families g none) z).map
      (fun f => (f.rootPid,f.rootBirthday,f.watcherPid)) =
      (m.families z).map fun f => (f.rootPid,f.rootBirthday,f.watcherPid) := by
    intro z hz
    rw [update_of_ne hz,hsame.families z,hf1]
  have hisSome : ∀ z, z ≠ g → ((update m2.families g none) z).isSome =
      (m.families z).isSome := by
    intro z hz
    rw [← isSome_map,hkeys z hz,isSome_map]
  have hrootPid : ∀ z, z ≠ g → ((update m2.families g none) z).map ProcFamily.rootPid =
      (m.families z).map ProcFamily.rootPid := by
    intro z hz
    have hmap := congrArg (Option.map Prod.fst) (hkeys z hz)
    simpa [Option.map_map,comp_def] using hmap
  have hge : g ≠ m.everybodyElse := fun he => h.tree.everybodyElse (he ▸ hg)
  refine ⟨⟨?_,?_,?_⟩,hp,hroot,hremoved,⟨fam,par,hfam,hparf,hfam3⟩,?_,htree,helse,hnext,?_,?_,?_,?_⟩
  · constructor
    · have hh := hremoved.holds h.tree.holds (List.Subset.refl _) h.tree.nodup hg rfl
      rw [if_neg (by simpa using Ne.symm hne)] at hh
      rw [htree]
      exact hh
    · rw [htree]
      exact erase_roots h.tree.roots hne
    · rw [Forest.ids_erase h.tree.nodup]
      exact h.tree.nodup.erase g
    · intro z
      rw [mem_erase_ids h.tree.nodup,helse]
      by_cases hz : z = g
      · subst hz
        simp [hge]
      · rw [hisSome z hz,h.tree.families z]
        simp [hz]
    · rw [mem_erase_ids h.tree.nodup,helse]
      exact fun hh => h.tree.everybodyElse hh.2
    · intro pid z
      rw [htab,mem_erase_ids h.tree.nodup]
      by_cases hz : z = g
      · subst hz
        have htz := h.tree.table pid z
        by_cases hpid : pid = fam.rootPid
        · simp [hpid]
        · simp [hpid,htz,hfam,Ne.symm hpid]
      · rw [hrootPid z hz]
        by_cases hpid : pid = fam.rootPid
        · subst hpid
          have htz := h.tree.table fam.rootPid z
          rw [h.tree.lookup hg hfam,Option.some.injEq] at htz
          simp only [update_self,reduceCtorEq,false_iff,not_and]
          intro hzF hzr
          exact hz (htz.mpr ⟨hzF.2,hzr⟩).symm
        · rw [update_of_ne hpid,h.tree.table pid z]
          simp [hz]
    · intro z hz
      rw [mem_erase_ids h.tree.nodup] at hz
      rw [hrootPid z hz.1]
      exact h.tree.rootPid z hz.2
    · rw [helse,hrootPid _ (Ne.symm hge)]
      exact h.tree.elseRoot
    · intro z hz
      rw [hnext]
      by_cases hzg : z = g
      · subst hzg
        simp at hz
      · rw [hisSome z hzg] at hz
        exact h.tree.fresh z hz
  · exact ⟨hmem2.chain,hmem2.nodup,hmem2.mem,hmem2.table,hmem2.fresh⟩
  · intro x c hc
    rw [hmembers x,map_eq_some_iff] at hc
    obtain ⟨d,hd,rfl⟩ := hc
    have hdm : m.members x = some d := by
      rw [← hd,← hm1]
    by_cases hdg : d.family = g
    · rw [if_pos hdg,hisSome p (Ne.symm hgp),hparf]
      rfl
    · rw [if_neg hdg,hisSome _ hdg]
      exact h.home x d hdm
  · intro x
    rw [hmembers x,← hm1]
  · rw [hsame.pidTracker,← hm1]
  · rw [hsame.loginTracker,← hm1]
  · rw [hsame.environmentTracker,← hm1]
  · rw [hsame.groupTracker,← hm1]

end Condor.Procd.Monitor
