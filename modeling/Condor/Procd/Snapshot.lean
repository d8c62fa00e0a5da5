import Condor.Procd.Cleanup

/-!
# Taking a snapshot

The members are those of the new list afterwards, the tree is in shape, and no family that is still
there has lost any processor time.
-/

namespace Condor.Procd.Monitor

open Condor.Lib List Option

variable {m m' : Monitor} {F F' : Forest Nat} {L L' : Nat → List Nat} {ps : List ProcInfo}

def Forward (m : Monitor) (ps : List ProcInfo) : Prop :=
  ∀ x c pi, m.members x = some c → pi ∈ ps → pi.pid = c.procInfo.pid →
    pi.birthday = c.procInfo.birthday → ∀ k : Gauge, k.live c.procInfo ≤ k.live pi

private theorem refreshed_eq (hnd : (ps.map ProcInfo.pid).Nodup) {c : ProcFamilyMember}
    {pi : ProcInfo}
    (hpi : pi ∈ ps) (hp : pi.pid = c.procInfo.pid) (hb : pi.birthday = c.procInfo.birthday) :
    refreshed ps c = { c with procInfo := pi, stillAlive := true } := by
  unfold refreshed
  cases hf : ps.find? fun pi => pi.pid = c.procInfo.pid && pi.birthday = c.procInfo.birthday with
  | none =>
    have := List.find?_eq_none.mp hf pi hpi
    simp [hp,hb] at this
  | some pi' =>
    have htest := find?_some hf
    simp only [Bool.and_eq_true,decide_eq_true_eq] at htest
    obtain rfl := eq_of_pid hnd (mem_of_find?_eq_some hf) hpi (htest.1.trans hp.symm)
    rfl

private theorem survivor_refreshed {c d : ProcFamilyMember} (hc : c.stillAlive = false)
    (h : survivor (refreshed ps c) = some d) :
    d.stillAlive = false ∧ d.procInfo ∈ ps ∧ d.procInfo.pid = c.procInfo.pid ∧
      d.procInfo.birthday = c.procInfo.birthday := by
  unfold refreshed at h
  split at h
  · rename_i pi hf
    have htest := find?_some hf
    simp only [Bool.and_eq_true,decide_eq_true_eq] at htest
    obtain rfl : _ = d := by simpa [survivor] using h
    exact ⟨rfl,mem_of_find?_eq_some hf,htest.1,htest.2⟩
  · simp [survivor,hc] at h

private theorem load_refreshed (k : Gauge) (hfw : Forward m ps) (hfam : m'.families = m.families)
    (hmem : ∀ z, m'.members z = (m.members z).map (refreshed ps)) (g : Nat) :
    load k m L g ≤ load k m' L g := by
  unfold load
  rw [hfam]
  apply Nat.add_le_add_right
  apply sum_le_sum
  intro x _
  unfold memberLoad
  rw [hmem x]
  cases hc : m.members x with
  | none => exact Nat.le_refl _
  | some c =>
    simp only [map_some,elim_some]
    unfold refreshed
    split
    · rename_i pi hf
      have htest := find?_some hf
      simp only [Bool.and_eq_true,decide_eq_true_eq] at htest
      exact hfw x c pi hc (mem_of_find?_eq_some hf) htest.1 htest.2 k
    · exact Nat.le_refl _

private theorem gathered_start {m2 : Monitor} {L2 : Nat → List Nat} {rest : List ProcInfo}
    (hnd : (ps.map ProcInfo.pid).Nodup)
    (hun : ∀ x c, m.members x = some c → c.stillAlive = false) (hshape : Shape m2 F L2)
    (hmem : ∀ z, m2.members z = (m.members z).bind fun c => survivor (refreshed ps c))
    (hrest : ∀ pi ∈ ps, (pi ∈ rest ↔ ¬Seen m pi)) : Gathered ps rest F m2 L2 m2 L2 := by
  have hback : ∀ x d, m2.members x = some d → ∃ c, m.members x = some c ∧ d.stillAlive = false ∧
      d.procInfo ∈ ps ∧ d.procInfo.pid = c.procInfo.pid ∧
      d.procInfo.birthday = c.procInfo.birthday := by
    intro x d hd
    rw [hmem x] at hd
    obtain ⟨c,hc,hs⟩ := Option.bind_eq_some_iff.mp hd
    exact ⟨c,hc,survivor_refreshed (hun x c hc) hs⟩
  refine ⟨SameTree.rfl,hshape,?_,?_,?_,fun _ _ _ _ => Nat.le_refl _⟩
  · intro x d hd
    obtain ⟨c,-,hal,-⟩ := hback x d hd
    exact hal
  · intro x d hd
    obtain ⟨c,-,-,hin,-⟩ := hback x d hd
    exact hin
  · intro pi hpi
    by_cases hseen : Seen m pi
    · obtain ⟨x,c,hc,hp,hb⟩ := hseen
      refine .inl ⟨x,{ c with procInfo := pi, stillAlive := false },?_,rfl⟩
      rw [hmem x,hc,bind_some,refreshed_eq hnd hpi hp.symm hb.symm]
      rfl
    · refine .inr ⟨?_,(hrest pi hpi).mpr hseen⟩
      cases ht : m2.memberTable pi.pid with
      | none => rfl
      | some x =>
        obtain ⟨d,hd,hdp⟩ := (hshape.members.table _ _).mp ht
        obtain ⟨c,hc,-,hin,hp,hb⟩ := hback x d hd
        obtain rfl := eq_of_pid hnd hin hpi hdp
        exact absurd ⟨x,c,hc,hp.symm,hb.symm⟩ hseen

private theorem Shape.gather (h : Shape m F L)
    (hun : ∀ x c, m.members x = some c → c.stillAlive = false)
    (ht : Tracked m F) (hnd : (ps.map ProcInfo.pid).Nodup) (hpos : ∀ pi ∈ ps, pi.pid ≠ 0) :
    ∃ m' L', m.snapshot ps = Monitor.deleteUnwatchedFrom m'.nextFamily m' (some m'.tree) ∧
      SameTree m m' ∧ Shape m' F L' ∧ Complete ps m' ∧
      (Forward m ps → ∀ k z, k ≠ .procs → z ∈ F.ids →
        Monitor.total k m L F z ≤ Monitor.total k m' L' F z) := by
  obtain ⟨m1,rest,hmark,hsame1,hshape1,hfam1,hmem1,hsublist,hrest⟩ := markAlive_spec h hnd hpos
  obtain ⟨m2,m3,L3,hvisit,helse,hsame3,hshape3,hload3,hmem3⟩ := exits_spec hshape1
  have hmem : ∀ z, m3.members z = (m.members z).bind fun c => survivor (refreshed ps c) := by
    intro z
    rw [hmem3 z,hmem1 z]
    cases m.members z <;> rfl
  have hsub := hsublist.subset
  have hgath := gathered_start hnd hun hshape3 hmem hrest
  have htr : Tracked m3 F := ht.congr fun t => (hsame1.trans hsame3).pointers t
  obtain ⟨m4,b4,L4,hrun4,hgath4,-⟩ :=
    hgath.findProcesses findByPid (sound_findByPid htr) hnd hsub (List.Subset.refl rest)
  obtain ⟨m5,b5,L5,hrun5,hgath5,-⟩ :=
    hgath4.findProcesses findByGroup (sound_findByGroup htr) hnd hsub (List.Subset.refl rest)
  obtain ⟨m6,b6,L6,hrun6,hgath6,-⟩ :=
    hgath5.findProcesses findByLogin (sound_findByLogin htr) hnd hsub (List.Subset.refl rest)
  obtain ⟨m7,b7,L7,hrun7,hgath7,-⟩ :=
    hgath6.findProcesses findByEnvironment (sound_findByEnvironment htr) hnd hsub
      (List.Subset.refl rest)
  have hpot := hgath7.shape.potential_le rest
  obtain ⟨m8,L8,hrun8,hgath8⟩ := hgath7.findByParents hnd hsub
    (n := rest.length * (m7.nextFamily + 1) + 1) (by rw [Nat.mul_add]; omega)
  obtain ⟨m9,L9,hrun9,hgath9,-,hall⟩ := hgath8.addEverybodyElse hnd hsub
  refine ⟨m9,L9,?_,hsame1.trans (hsame3.trans hgath9.same),hgath9.shape,
    ⟨hgath9.unmarked,hgath9.listed,?_⟩,?_⟩
  · simp only [Monitor.snapshot,hmark,bind_eq_bind,bind_some,hvisit,helse,hrun4,hrun5,
      hrun6,hrun7,hrun8,hrun9]
  · intro pi hpi
    rcases hgath9.known pi hpi with hk | ⟨hnone,hin⟩
    · exact hk
    · exact absurd hnone (hall pi hin)
  · intro hfw k z hk hz
    calc Monitor.total k m L F z ≤ Monitor.total k m1 L F z :=
          total_mono hz fun g _ => load_refreshed k hfw hfam1 hmem1 g
      _ = Monitor.total k m3 L3 F z := (total_congr hz fun g _ => hload3 k g hk).symm
      _ ≤ Monitor.total k m9 L9 F z := hgath9.total k z hk hz

/-- The families that were there before and still are have not changed, and have not lost any
time. -/
structure Stepped (ps : List ProcInfo) (m : Monitor) (F : Forest Nat) (L : Nat → List Nat)
    (m' : Monitor) (F' : Forest Nat) (L' : Nat → List Nat) : Prop where
  shape : Shape m' F' L'
  complete : Complete ps m'
  tree : m'.tree = m.tree
  everybodyElse : m'.everybodyElse = m.everybodyElse
  nextFamily : m.nextFamily ≤ m'.nextFamily
  fresh : ∀ z ∈ F'.ids, z ∈ F.ids ∨ m.nextFamily ≤ z
  keys : ∀ z ∈ F.ids, z ∈ F'.ids →
    (m'.families z).map (fun f => (f.rootPid,f.rootBirthday,f.watcherPid)) =
      (m.families z).map fun f => (f.rootPid,f.rootBirthday,f.watcherPid)
  total : Forward m ps → ∀ k z, k ≠ .procs → z ∈ F.ids → z ∈ F'.ids →
    total k m L F z ≤ total k m' L' F' z
  pointers : ∀ t, t ≠ .pid → m'.pointers t ⊆ m.pointers t

theorem Complete.forward (h : Complete ps m)
    (hnd : (ps.map ProcInfo.pid).Nodup) : Forward m ps := by
  intro x c pi hc hpi hp _ k
  obtain rfl := eq_of_pid hnd hpi (h.listed x c hc) hp
  exact Nat.le_refl _

theorem Stepped.mem_of_mem {F1 F2 : Forest Nat} {L1 L2 : Nat → List Nat} {m1 m2 : Monitor}
    (h : Stepped ps m1 F1 L1 m2 F2 L2) (hs : TreeShape m F) (hle : m.nextFamily ≤ m1.nextFamily)
    {z : Nat} (hz : z ∈ F.ids) (hz2 : z ∈ F2.ids) : z ∈ F1.ids := by
  refine (h.fresh z hz2).resolve_right fun hlt => ?_
  have := hs.fresh z ((hs.families z).mpr (.inl hz))
  omega

theorem Stepped.lookup (h : Stepped ps m F L m' F' L') (hs : TreeShape m F) {pid : Pid} {b : Bool}
    {g : Nat} (hg : g ∈ F.ids) (hl : m.lookupFamily pid b = some g) (hex : m'.families g ≠ none) :
    g ∈ F'.ids ∧ m'.lookupFamily pid b = some g := by
  have hg' : g ∈ F'.ids := by
    refine ((h.shape.tree.families g).mp (Option.isSome_iff_ne_none.mpr hex)).resolve_right
      fun he => ?_
    rw [h.everybodyElse] at he
    exact hs.everybodyElse (he ▸ hg)
  refine ⟨hg',?_⟩
  unfold lookupFamily at hl ⊢
  split at hl
  · rename_i hz
    rw [if_pos hz,h.tree]
    exact hl
  · rename_i hz
    rw [if_neg hz,h.shape.tree.table pid g]
    refine ⟨hg',?_⟩
    have hkey := congrArg (Option.map Prod.fst) (h.keys g hg hg')
    rw [Option.map_map,Option.map_map] at hkey
    exact hkey.trans ((hs.table pid g).mp hl).2

theorem Stepped.trans {m'' : Monitor} {F'' : Forest Nat} {L'' : Nat → List Nat}
    (h : Stepped ps m F L m' F' L') (hs : TreeShape m F) (hnd : (ps.map ProcInfo.pid).Nodup)
    (h' : Stepped ps m' F' L' m'' F'' L'') : Stepped ps m F L m'' F'' L'' where
  shape := h'.shape
  complete := h'.complete
  tree := h'.tree.trans h.tree
  everybodyElse := h'.everybodyElse.trans h.everybodyElse
  nextFamily := h.nextFamily.trans h'.nextFamily
  fresh z hz := by
    rcases h'.fresh z hz with hz | hz
    · exact h.fresh z hz
    · exact .inr (h.nextFamily.trans hz)
  keys z hz hz'' := by
    have hz' := h'.mem_of_mem hs h.nextFamily hz hz''
    rw [h'.keys z hz' hz'',h.keys z hz hz']
  total hf k z hk hz hz'' := by
    have hz' := h'.mem_of_mem hs h.nextFamily hz hz''
    exact (h.total hf k z hk hz hz').trans
      (h'.total (h.complete.forward hnd) k z hk hz' hz'')
  pointers t ht := List.Subset.trans (h'.pointers t ht) (h.pointers t ht)

theorem SameTree.watched (h : SameTree m m') (g : Nat) :
    (m'.families g).map (watched ps) = (m.families g).map (watched ps) := by
  have hmap := congrArg (Option.map fun k : Pid × Nat × Pid =>
    Monitor.watched ps ⟨0,k.2.1,k.2.2,0,0⟩) (h.families g)
  rw [Option.map_map,Option.map_map] at hmap
  exact hmap

theorem SameTree.releasable (h : SameTree m m') (hr : Releasable ps m F) : Releasable ps m' F := by
  intro g hg hw t ht
  rw [h.watched] at hw
  rw [h.pointers]
  exact hr g hg hw t ht

theorem TreeShape.eq_cons (h : TreeShape m F) : ∃ C, F = .cons m.tree C .nil := by
  have hroots := h.roots
  cases F with
  | nil => simp [Forest.roots] at hroots
  | cons g C S =>
    simp only [Forest.roots,List.cons.injEq] at hroots
    obtain ⟨rfl,hS⟩ := hroots
    cases S with
    | nil => exact ⟨C,rfl⟩
    | cons y D T => simp [Forest.roots] at hS

theorem TreeShape.parent_tree (h : TreeShape m F) : m.links.parent m.tree = none := by
  obtain ⟨C,hF⟩ := h.eq_cons
  have hholds := h.holds
  rw [hF] at hholds
  exact hholds.2.1

theorem Shape.snapshot (h : Shape m F L)
    (hun : ∀ x c, m.members x = some c → c.stillAlive = false) (ht : Tracked m F)
    (hnd : (ps.map ProcInfo.pid).Nodup) (hpos : ∀ pi ∈ ps, pi.pid ≠ 0)
    (hroot : (m.families m.tree).map (watched ps) = some true) :
    ∃ m' F' L', m.snapshot ps = some m' ∧ Stepped ps m F L m' F' L' ∧
      (Releasable ps m F → Tracked m' F') := by
  obtain ⟨m1,L1,hrun,hsame,hshape,hcomp,htotal⟩ := h.gather hun ht hnd hpos
  obtain ⟨m',F',L',hdel,hcl⟩ := hshape.deleteUnwatchedFrom F (n := m1.nextFamily) hcomp hnd
    hshape.tree.holds (List.Subset.refl _) hshape.tree.nodup (by simp) (by
      intro _
      rw [hsame.tree,hsame.watched]
      exact hroot) hshape.tree.length_lt
  refine ⟨m',F',L',hrun.trans hdel,⟨hcl.shape,hcl.complete hcomp,hcl.tree.trans hsame.tree,
    hcl.everybodyElse.trans hsame.everybodyElse,?_,fun z hz => .inl (hcl.ids hz),?_,?_,?_⟩,?_⟩
  · rw [hcl.nextFamily,hsame.nextFamily]
  · intro z _ hz
    rw [hcl.keys z hz,hsame.families z]
  · intro hfw k z hk hzF hz
    rw [hcl.total k z hz]
    exact htotal hfw k z hk hzF
  · intro t _
    rw [← hsame.pointers t]
    exact (hcl.pointers t).subset
  · intro hr
    exact hcl.tracked (ht.congr hsame.pointers) (hsame.releasable hr)

theorem Shape.snapshot_none (h : Shape m F L)
    (hun : ∀ x c, m.members x = some c → c.stillAlive = false) (ht : Tracked m F)
    (hnd : (ps.map ProcInfo.pid).Nodup) (hpos : ∀ pi ∈ ps, pi.pid ≠ 0)
    (hroot : (m.families m.tree).map (watched ps) = some false) : m.snapshot ps = none := by
  obtain ⟨m1,L1,hrun,hsame,hshape,hcomp,-⟩ := h.gather hun ht hnd hpos
  rw [hrun]
  obtain ⟨C,hF⟩ := hshape.tree.eq_cons
  have hholds := hshape.tree.holds
  have hndF := hshape.tree.nodup
  have hlen := hshape.tree.length_lt
  have htree := hshape.tree.tree_mem
  rw [hF] at hholds hndF hlen
  obtain ⟨-,-,hC,-⟩ := hholds
  simp only [Forest.ids_cons,Forest.ids_nil,append_nil,length_cons,
    nodup_cons] at hndF hlen
  cases hn : m1.nextFamily with
  | zero => omega
  | succ n =>
    -- the children are done, then the root is found without a watcher
    obtain ⟨m2,F2,L2,hdel,hcl⟩ := hshape.deleteUnwatchedFrom C (n := n) hcomp hnd hC
      (fun z hz => by rw [hF]; simp [hz]) hndF.2 (fun x hx he => hndF.1 (some.inj he ▸ hx))
      (fun h' => absurd h' hndF.1) (by omega)
    have hin : m1.tree ∈ F2.ids := hcl.kept _ htree hndF.1
    obtain ⟨fam,hfam⟩ := hcl.shape.tree.exists_family hin
    have hw : watched ps fam = false := by
      have := hcl.watched hin
      rw [hsame.watched,hsame.tree,hroot,← hsame.tree,hfam] at this
      simpa using this
    have hnopar : m2.links.parent m1.tree = none := by
      rw [← hcl.tree]
      exact hcl.shape.tree.parent_tree
    have hun2 : m2.unregisterNode m1.tree = none := by
      simp [Monitor.unregisterNode,hfam,hnopar]
    simp [Monitor.deleteUnwatchedFrom,hdel,(hcl.complete hcomp).checkWatcher hcl.shape.members
      hnd hfam,
      hw,hun2]

end Condor.Procd.Monitor
