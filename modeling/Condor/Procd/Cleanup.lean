import Condor.Procd.Trackers

/-!
# Families whose watcher has exited

At the end of a snapshot the tree is walked from below, and each family whose watcher is gone is
unregistered.
-/

namespace Condor.Procd.Monitor

open Condor.Lib List Option

variable {m m' m'' : Monitor} {F F' F'' : Forest Nat} {L L' L'' : Nat → List Nat}
  {ps : List ProcInfo}

structure Complete (ps : List ProcInfo) (m : Monitor) : Prop where
  unmarked : ∀ x c, m.members x = some c → c.stillAlive = false
  listed : ∀ x c, m.members x = some c → c.procInfo ∈ ps
  known : ∀ pi ∈ ps, Known m pi

def watched (ps : List ProcInfo) (fam : ProcFamily) : Bool :=
  fam.watcherPid = 0 ||
    ps.any fun pi => pi.pid = fam.watcherPid && pi.birthday ≤ fam.rootBirthday

theorem Complete.watcherAlive (h : Complete ps m) (hs : MemberShape m L)
    (hnd : (ps.map ProcInfo.pid).Nodup) (fam : ProcFamily) :
    m.watcherAlive fam =
      some (ps.any fun pi => pi.pid = fam.watcherPid && pi.birthday ≤ fam.rootBirthday) := by
  unfold Monitor.watcherAlive
  cases ht : m.memberTable fam.watcherPid with
  | none =>
    simp only [some.injEq]
    symm
    rw [List.any_eq_false]
    intro pi hpi
    obtain ⟨x,c,hc,rfl⟩ := h.known pi hpi
    have hlook := hs.lookup hc
    have hne : c.procInfo.pid ≠ fam.watcherPid := by
      intro he
      rw [he,ht] at hlook
      simp at hlook
    simp [hne]
  | some x =>
    obtain ⟨c,hc,hp⟩ := (hs.table _ _).mp ht
    have hin := h.listed x c hc
    simp only [hc,bind_eq_bind,bind_some,some.injEq]
    rw [Bool.eq_iff_iff,List.any_eq_true]
    simp only [Bool.and_eq_true,decide_eq_true_eq]
    constructor
    · intro hb
      exact ⟨c.procInfo,hin,hp,hb⟩
    · intro ⟨pi,hpi,hpp,hb⟩
      obtain rfl := eq_of_pid hnd hpi hin (hpp.trans hp.symm)
      exact hb

theorem Complete.checkWatcher (h : Complete ps m) (hs : MemberShape m L)
    (hnd : (ps.map ProcInfo.pid).Nodup) {g : Nat} {fam : ProcFamily}
    (hfam : m.families g = some fam) :
    m.checkWatcher g = if watched ps fam then some m else m.unregisterNode g := by
  unfold Monitor.checkWatcher
  simp only [hfam,bind_eq_bind,bind_some,h.watcherAlive hs hnd fam]
  by_cases hw : fam.watcherPid = 0
  · simp [watched,hw]
  · simp [watched,hw]

def Releasable (ps : List ProcInfo) (m : Monitor) (F : Forest Nat) : Prop :=
  ∀ g ∈ F.ids, (m.families g).map (watched ps) = some false →
    ∀ t, t ≠ .pid → (m.pointers t).count g ≤ 1

/-- Only families of the list `zs` have gone, each because it was not watched, and their parents
have taken them over. -/
structure Cleaned (ps : List ProcInfo) (zs : List Nat) (m : Monitor) (F : Forest Nat)
    (L : Nat → List Nat) (m' : Monitor) (F' : Forest Nat) (L' : Nat → List Nat) : Prop where
  shape : Shape m' F' L'
  ids : F'.ids ⊆ F.ids
  kept : ∀ z ∈ F.ids, z ∉ zs → z ∈ F'.ids
  members : ∀ x, (m'.members x).map (fun c => (c.procInfo,c.stillAlive)) =
    (m.members x).map fun c => (c.procInfo,c.stillAlive)
  keys : ∀ g ∈ F'.ids, (m'.families g).map (fun f => (f.rootPid,f.rootBirthday,f.watcherPid)) =
    (m.families g).map fun f => (f.rootPid,f.rootBirthday,f.watcherPid)
  tree : m'.tree = m.tree
  everybodyElse : m'.everybodyElse = m.everybodyElse
  nextFamily : m'.nextFamily = m.nextFamily
  total : ∀ k, ∀ z ∈ F'.ids, total k m' L' F' z = total k m L F z
  pointers : ∀ t, (m'.pointers t).Sublist (m.pointers t)
  frame : ∀ q p H, m.links.Holds q p H → H.ids ⊆ F.ids → H.ids.Nodup → (∀ z ∈ zs, z ∉ H.ids) →
    (∀ z ∈ zs, q ≠ some z) → m'.links.Holds q p H
  tracked : Tracked m F → Releasable ps m F → Tracked m' F'

theorem Cleaned.rfl (h : Shape m F L) : Cleaned ps [] m F L m F L where
  shape := h
  ids := List.Subset.refl _
  kept _ hz _ := hz
  members _ := Eq.refl _
  keys _ _ := Eq.refl _
  tree := Eq.refl _
  everybodyElse := Eq.refl _
  nextFamily := Eq.refl _
  total _ _ _ := Eq.refl _
  pointers _ := List.Sublist.refl _
  frame _ _ _ hh _ _ _ _ := hh
  tracked ht _ := ht

theorem Cleaned.watched {zs : List Nat} (h : Cleaned ps zs m F L m' F' L') {g : Nat}
    (hg : g ∈ F'.ids) : (m'.families g).map (watched ps) = (m.families g).map (watched ps) := by
  have hmap := congrArg (Option.map fun k : Pid × Nat × Pid =>
    Monitor.watched ps ⟨0,k.2.1,k.2.2,0,0⟩) (h.keys g hg)
  rw [Option.map_map,Option.map_map] at hmap
  exact hmap

theorem Cleaned.releasable {zs : List Nat} (h : Cleaned ps zs m F L m' F' L')
    (hr : Releasable ps m F) : Releasable ps m' F' := by
  intro g hg hw t ht
  rw [h.watched hg] at hw
  exact ((h.pointers t).count_le g).trans (hr g (h.ids hg) hw t ht)

theorem Complete.congr (hc : Complete ps m)
    (h : ∀ x, (m'.members x).map (fun c => (c.procInfo,c.stillAlive)) =
      (m.members x).map fun c => (c.procInfo,c.stillAlive)) : Complete ps m' := by
  have hback : ∀ x c', m'.members x = some c' → ∃ c, m.members x = some c ∧
      c.procInfo = c'.procInfo ∧ c.stillAlive = c'.stillAlive := by
    intro x c' hc'
    have hx := h x
    rw [hc',map_some] at hx
    obtain ⟨c,hcx,he⟩ := Option.map_eq_some_iff.mp hx.symm
    exact ⟨c,hcx,(Prod.mk.inj he).1,(Prod.mk.inj he).2⟩
  constructor
  · intro x c' hc'
    obtain ⟨c,hcx,-,ha⟩ := hback x c' hc'
    rw [← ha]
    exact hc.unmarked x c hcx
  · intro x c' hc'
    obtain ⟨c,hcx,hp,-⟩ := hback x c' hc'
    rw [← hp]
    exact hc.listed x c hcx
  · intro pi hpi
    obtain ⟨x,c,hcx,rfl⟩ := hc.known pi hpi
    have hx := h x
    rw [hcx,map_some] at hx
    obtain ⟨c',hcx',he⟩ := Option.map_eq_some_iff.mp hx
    exact ⟨x,c',hcx',(Prod.mk.inj he).1⟩

theorem Cleaned.complete {zs : List Nat} (h : Cleaned ps zs m F L m' F' L') (hc : Complete ps m) :
    Complete ps m' :=
  hc.congr h.members

theorem Cleaned.trans {zs ws : List Nat} (h : Cleaned ps zs m F L m' F' L')
    (h' : Cleaned ps ws m' F' L' m'' F'' L'') : Cleaned ps (zs ++ ws) m F L m'' F'' L'' where
  shape := h'.shape
  ids := List.Subset.trans h'.ids h.ids
  kept z hz hn := by
    simp only [mem_append,not_or] at hn
    exact h'.kept z (h.kept z hz hn.1) hn.2
  members x := (h'.members x).trans (h.members x)
  keys g hg := (h'.keys g hg).trans (h.keys g (h'.ids hg))
  tree := h'.tree.trans h.tree
  everybodyElse := h'.everybodyElse.trans h.everybodyElse
  nextFamily := h'.nextFamily.trans h.nextFamily
  total k z hz := (h'.total k z hz).trans (h.total k z (h'.ids hz))
  pointers t := (h'.pointers t).trans (h.pointers t)
  frame q p H hh hsub hnd hz hq := by
    simp only [mem_append] at hz hq
    have hh' := h.frame q p H hh hsub hnd
      (fun z hzs => hz z (.inl hzs)) fun z hzs => hq z (.inl hzs)
    refine h'.frame q p H hh' (fun y hy => ?_) hnd (fun z hzs => hz z (.inr hzs)) fun z hzs =>
      hq z (.inr hzs)
    exact h.kept y (hsub hy) fun hyz => hz y (.inl hyz) hy
  tracked ht hr := h'.tracked (h.tracked ht hr) (h.releasable hr)

theorem Cleaned.mono {zs ws : List Nat} (h : Cleaned ps zs m F L m' F' L') (hsub : zs ⊆ ws) :
    Cleaned ps ws m F L m' F' L' :=
  { h with
    kept := fun z hz hn => h.kept z hz fun hzs => hn (hsub hzs)
    frame := fun q p H hh hF hnd hz hq => h.frame q p H hh hF hnd (fun z hzs => hz z (hsub hzs))
      fun z hzs => hq z (hsub hzs) }

theorem Unregistered.sameProcess {g p : Nat} (h : Unregistered m m' F L g p) (x : Nat) :
    (m'.members x).map (fun c => (c.procInfo,c.stillAlive)) =
      (m.members x).map fun c => (c.procInfo,c.stillAlive) := by
  rw [h.members x]
  cases m.members x with
  | none => rfl
  | some c =>
    simp only [map_some]
    split <;> rfl

theorem Unregistered.keys {g p z : Nat} (h : Unregistered m m' F L g p) (hnd : F.ids.Nodup)
    (hz : z ∈ (F.erase g).ids) :
    (m'.families z).map (fun f => (f.rootPid,f.rootBirthday,f.watcherPid)) =
      (m.families z).map fun f => (f.rootPid,f.rootBirthday,f.watcherPid) := by
  obtain ⟨fam,par,-,hpar,hfams⟩ := h.families
  rw [hfams,Function.update_of_ne ((mem_erase_ids hnd).mp hz).1]
  by_cases hzp : z = p
  · simp [inherited,hzp,hpar]
  · simp [inherited,hzp]

private theorem Unregistered.cleaned {g p : Nat} (h : Unregistered m m' F L g p) (hs : Shape m F L)
    (hg : g ∈ F.ids) (hpar : m.links.parent g = some p)
    (hw : (m.families g).map (Monitor.watched ps) = some false) :
    Cleaned ps [g] m F L m' (F.erase g) (foldedLists L g p) := by
  have hnd := hs.tree.nodup
  constructor
  · exact h.shape
  · intro z hz
    exact ((mem_erase_ids hnd).mp hz).2
  · intro z hz hn
    exact (mem_erase_ids hnd).mpr ⟨by simpa using hn,hz⟩
  · exact h.sameProcess
  · intro z hz
    exact h.keys hnd hz
  · exact h.tree
  · exact h.everybodyElse
  · exact h.nextFamily
  · intro k z hz
    obtain ⟨hzg,hzF⟩ := (mem_erase_ids hnd).mp hz
    exact h.total hs hpar k hzF hzg
  · intro t
    rw [h.pointers t]
    exact erase_sublist
  · intro q p' H hh hF hndH hz hq
    exact h.removed.apart (hs.tree.holds.under hg) hh hF hndH (hz g (by simp)) (hq g (by simp))
  · intro ht hr
    refine ht.unregistered h hnd fun t => ?_
    by_cases htp : t = .pid
    · rw [htp]
      exact List.nodup_iff_count_le_one.mp ht.nodup g
    · exact hr g hg hw t htp

theorem Shape.checkWatcher (h : Shape m F L) (hc : Complete ps m)
    (hnd : (ps.map ProcInfo.pid).Nodup) {g : Nat} (hg : g ∈ F.ids)
    (hroot : g = m.tree → (m.families g).map (Monitor.watched ps) = some true) :
    ∃ m' F' L', m.checkWatcher g = some m' ∧ Cleaned ps [g] m F L m' F' L' := by
  obtain ⟨fam,hfam⟩ := h.tree.exists_family hg
  rw [hc.checkWatcher h.members hnd hfam]
  cases hw : Monitor.watched ps fam with
  | true => exact ⟨m,F,L,by simp,(Cleaned.rfl h).mono (nil_subset _)⟩
  | false =>
    have hne : g ≠ m.tree := by
      intro hgt
      have := hroot hgt
      simp [hfam,hw] at this
    obtain ⟨m',p,hrun,hpar,hun⟩ := h.unregisterNode hg hne
    exact ⟨m',F.erase g,foldedLists L g p,by simp [hrun],hun.cleaned h hg hpar (by simp [hfam,hw])⟩

theorem Shape.deleteUnwatchedFrom (G : Forest Nat) {n : Nat} {q p : Option Nat} (h : Shape m F L)
    (hc : Complete ps m) (hnd : (ps.map ProcInfo.pid).Nodup) (hG : m.links.Holds q p G)
    (hsub : G.ids ⊆ F.ids) (hGnd : G.ids.Nodup) (hq : ∀ x ∈ G.ids, q ≠ some x)
    (hroot : m.tree ∈ G.ids → (m.families m.tree).map (Monitor.watched ps) = some true)
    (hn : G.ids.length < n) :
    ∃ m' F' L', Monitor.deleteUnwatchedFrom n m p = some m' ∧ Cleaned ps G.ids m F L m' F' L' := by
  induction G generalizing m F L n q p with
  | nil =>
    obtain rfl : p = none := hG
    cases n with
    | zero => simp at hn
    | succ n => exact ⟨m,F,L,rfl,Cleaned.rfl h⟩
  | cons g C S ihC ihS =>
    obtain ⟨rfl,hpar,hC,hS⟩ := hG
    obtain ⟨hgCS,hCS⟩ := List.nodup_cons.mp hGnd
    obtain ⟨hCnd,hSnd,hdis⟩ := List.nodup_append.mp hCS
    simp only [mem_append,not_or] at hgCS
    have hgF : g ∈ F.ids := hsub (by simp)
    have hCF : C.ids ⊆ F.ids := fun z hz => hsub (by simp [hz])
    have hSF : S.ids ⊆ F.ids := fun z hz => hsub (by simp [hz])
    simp only [Forest.ids_cons,length_cons,length_append] at hn
    cases n with
    | zero => simp at hn
    | succ n =>
      -- the children
      obtain ⟨m1,F1,L1,hrun1,hcl1⟩ := ihC h hc hC hCF hCnd
        (fun x hx he => hgCS.1 (some.inj he ▸ hx)) (fun ht => hroot (by simp [ht]))
        (n := n) (by omega)
      have hc1 := hcl1.complete hc
      have hg1 : g ∈ F1.ids := hcl1.kept g hgF hgCS.1
      have hS1 : m1.links.Holds q (m.links.sibling g) S := by
        apply hcl1.frame _ _ _ hS hSF hSnd
        · intro z hz hzS
          exact hdis z hz z hzS rfl
        · intro z hz
          exact hq z (by simp [hz])
      -- the node itself
      obtain ⟨m2,F2,L2,hrun2,hcl2⟩ := hcl1.shape.checkWatcher hc1 hnd hg1 (by
        intro hgt
        rw [hcl1.tree] at hgt
        rw [hcl1.watched hg1,hgt]
        exact hroot (by simp [hgt]))
      have hcl := hcl1.trans hcl2
      have hS2 : m2.links.Holds q (m.links.sibling g) S := by
        apply hcl2.frame _ _ _ hS1 _ hSnd
        · intro z hz
          rw [List.mem_singleton.mp hz]
          exact hgCS.2
        · intro z hz
          rw [List.mem_singleton.mp hz]
          exact hq g (by simp)
        · intro z hz
          exact hcl1.kept z (hSF hz) fun hzC => hdis z hzC z hz rfl
      -- the siblings
      have hnot : ∀ z ∈ S.ids, z ∉ C.ids ++ [g] := by
        intro z hz hzC
        rcases List.mem_append.mp hzC with hzC | hzg
        · exact hdis z hzC z hz rfl
        · exact hgCS.2 (List.mem_singleton.mp hzg ▸ hz)
      obtain ⟨m3,F3,L3,hrun3,hcl3⟩ := ihS hcl2.shape (hcl2.complete hc1) hS2
        (fun z hz => hcl.kept z (hSF hz) (hnot z hz)) hSnd (fun x hx => hq x (by simp [hx])) (by
          intro ht
          rw [hcl.tree] at ht ⊢
          rw [hcl.watched (hcl.kept _ (hSF ht) (hnot _ ht))]
          exact hroot (by simp [ht])) (n := n) (by omega)
      refine ⟨m3,F3,L3,?_,(hcl.trans hcl3).mono ?_⟩
      · simp [Monitor.deleteUnwatchedFrom,hrun1,hrun2,hrun3]
      · intro z hz
        simp only [mem_append,mem_singleton] at hz
        simp only [Forest.ids_cons,mem_cons,mem_append]
        tauto

end Condor.Procd.Monitor
