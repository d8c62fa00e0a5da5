import Condor.Lib.Run
import Condor.Procd.Requests

/-!
# The monitor stays consistent

The members, the tables, the tree and the trackers agree after every request, as long as no family
is unregistered that a tracker has two mappings of: only one of them is removed.
-/

namespace Condor.Procd.World

open Condor.Lib Monitor Function

variable {w : World} {F : Forest Nat} {L : Nat → List Nat}

/-- The tree `F` and the lists `L` of the members are what the pointers and tables say. -/
structure Consistent (w : World) (F : Forest Nat) (L : Nat → List Nat) : Prop where
  member : ∀ pi ∈ w.last, ∃ x c, w.monitor.members x = some c ∧ c.procInfo = pi ∧
    w.monitor.memberTable pi.pid = some x ∧
    (c.family ∈ F.ids ∨ c.family = w.monitor.everybodyElse) ∧ (∀ g, x ∈ L g ↔ g = c.family) ∧
    ∀ y d, w.monitor.members y = some d → d.procInfo.pid = pi.pid → y = x
  lists : ∀ g, w.monitor.neighbours.Holds (w.monitor.memberList g) (L g) ∧ (L g).Nodup
  links : w.monitor.links.Holds none (some w.monitor.tree) F ∧ F.ids.Nodup
  families : ∀ g ∈ F.ids, (w.monitor.families g).isSome = true
  table : ∀ pid g, w.monitor.familyTable pid = some g ↔
    g ∈ F.ids ∧ (w.monitor.families g).map ProcFamily.rootPid = some pid
  pointers : ∀ t, ∀ g ∈ w.monitor.pointers t, g ∈ F.ids

theorem Good.consistent (h : Good w F L) (hpos : ∀ pi ∈ w.last, 0 < pi.pid) : w.Consistent F L where
  member pi hpi := by
    have hlive : pi ∈ live w.last := List.mem_filter.mpr ⟨hpi,by simpa using ne_of_gt (hpos pi hpi)⟩
    obtain ⟨x,c,hc,rfl⟩ := h.complete.known pi hlive
    refine ⟨x,c,hc,rfl,h.shape.members.lookup hc,(h.shape.tree.families _).mp (h.shape.home x c hc),
      ?_,?_⟩
    · intro g
      rw [h.shape.members.mem g x,hc]
      simp [eq_comm]
    · intro y d hd hp
      exact h.shape.members.pid_injective hd hc hp
  lists g := ⟨h.shape.members.chain g,h.shape.members.nodup g⟩
  links := ⟨h.shape.tree.holds,h.shape.tree.nodup⟩
  families g hg := (h.shape.tree.families g).mpr (.inl hg)
  table := h.shape.tree.table
  pointers := h.tracked.valid

def rootFamily (pid : Pid) (birthday : Nat) (exceptIfPidDies : Bool) : ProcFamily :=
  { rootPid := pid, rootBirthday := birthday, watcherPid := if exceptIfPidDies then pid else 0 }

def blank (pid : Pid) (birthday : Nat) (exceptIfPidDies : Bool) : Monitor :=
  { (({ exceptIfPidDies := exceptIfPidDies } : Monitor).newFamily {}).newFamily
      (rootFamily pid birthday exceptIfPidDies) with
    pidTracker := [((pid,birthday),1)]
    familyTable := update (fun _ => none) pid (some 1) }

theorem blank_families (pid : Pid) (birthday : Nat) (ex : Bool) (g : Nat) :
    (blank pid birthday ex).families g =
      if g = 1 then some (rootFamily pid birthday ex) else if g = 0 then some {} else none := by
  simp only [blank,newFamily,update_apply]

theorem good_blank {pid : Pid} (hpid : pid ≠ 0) (birthday : Nat) (ex : Bool) :
    Good ⟨blank pid birthday ex,[]⟩ (.cons 1 .nil .nil) fun _ => [] := by
  refine ⟨⟨⟨?_,rfl,by simp,?_,?_,?_,?_,?_,?_⟩,⟨?_,by simp,?_,?_,?_⟩,?_⟩,⟨?_,?_,by simp [live]⟩,
    ⟨?_,by simp [Monitor.pointers,blank]⟩,by simp [Listing,live]⟩
  · exact ⟨rfl,rfl,rfl,rfl⟩
  · intro g
    rw [blank_families]
    have he : (blank pid birthday ex).everybodyElse = 0 := rfl
    by_cases hg : g = 1
    · simp [hg]
    · by_cases hg' : g = 0
      · simp [hg',he]
      · simp [hg,hg',he]
  · simp [blank,newFamily]
  · intro p g
    rw [blank_families]
    by_cases hp : p = pid
    · subst hp
      by_cases hg : g = 1
      · simp [blank,hg,rootFamily]
      · simp [blank,hg,Ne.symm hg]
    · by_cases hg : g = 1
      · simp [blank,hp,hg,rootFamily,Ne.symm hp]
      · simp [blank,hp,hg]
  · intro g hg
    rw [blank_families]
    obtain rfl : g = 1 := by simpa using hg
    simpa [rootFamily] using hpid
  · rfl
  · intro g hg
    rw [blank_families] at hg
    show g < 2
    by_cases h1 : g = 1
    · omega
    · by_cases h0 : g = 0
      · omega
      · simp [h0,h1] at hg
  · intro g
    have hnone : (blank pid birthday ex).memberList g = none := by
      simp [blank,newFamily]
    rw [hnone]
    rfl
  · intro g x
    simp [blank,newFamily]
  · intro p x
    simp [blank,newFamily]
  · intro x c hc
    simp [blank,newFamily] at hc
  · intro x c hc
    simp [blank,newFamily] at hc
  · intro x c hc
    simp [blank,newFamily] at hc
  · intro x c hc
    simp [blank,newFamily] at hc
  · intro t g hg
    cases t with
    | pid => simpa [Monitor.pointers,blank] using hg
    | _ => simp [Monitor.pointers,blank,newFamily] at hg

def Rooted (root : ProcFamily) (m : Monitor) : Prop :=
  (m.families m.tree).map (fun f => (f.rootPid,f.rootBirthday,f.watcherPid)) =
    some (root.rootPid,root.rootBirthday,root.watcherPid)

variable {root : ProcFamily}

theorem Rooted.watched {m : Monitor} (h : Rooted root m) (ps : List ProcInfo) :
    (m.families m.tree).map (watched ps) = some (watched ps root) := by
  have hmap := congrArg (Option.map fun k : Pid × Nat × Pid =>
    Monitor.watched ps ⟨0,k.2.1,k.2.2,0,0⟩) h
  rw [Option.map_map] at hmap
  exact hmap

variable {ps : List ProcInfo}

theorem Rooted.stepped {m m' : Monitor} {F' : Forest Nat} {L' : Nat → List Nat} (h : Rooted root m)
    (hs : TreeShape m F)
    (hst : Stepped ps m F L m' F' L') : Rooted root m' := by
  have hin : m.tree ∈ F'.ids := by
    rw [← hst.tree]
    exact hst.shape.tree.tree_mem
  unfold Rooted
  rw [hst.tree,hst.keys _ hs.tree_mem hin]
  exact h

theorem start_good {pid : Pid} {birthday : Nat} {ex : Bool}
    (group : Option (BitVec 32 × Nat × Bool)) (hpid : pid ≠ 0) (hps : Listing ps)
    (hw : watched ps (rootFamily pid birthday ex) = true) :
    ∃ w F L, start pid birthday ex group ps = some w ∧ w.last = ps ∧ Good w F L ∧
      Rooted (rootFamily pid birthday ex) w.monitor ∧ ∀ t, t ≠ .pid →
        w.monitor.pointers t = [] := by
  have hblank := good_blank hpid birthday ex
  have hroot : Rooted (rootFamily pid birthday ex) (blank pid birthday ex) := by
    unfold Rooted
    rw [blank_families]
    rfl
  obtain ⟨m,F,L,hrun,hs,ht⟩ := hblank.snapshot hps (by rw [hroot.watched,hw])
  have hrooted := hroot.stepped hblank.shape.tree hs
  have hnone : ∀ t, t ≠ .pid → m.pointers t = [] := by
    intro t ht
    apply List.subset_nil.mp
    refine List.Subset.trans (hs.pointers t ht) ?_
    cases t with
    | pid => exact absurd rfl ht
    | _ => exact List.Subset.refl _
  have htr : Tracked m F := by
    apply ht
    intro g _ _ t ht
    cases t with
    | pid => exact absurd rfl ht
    | _ => exact Nat.zero_le 1
  have hcons : construct pid birthday ex ps = some m := hrun
  have hgood : Good ⟨m,ps⟩ F L := ⟨hs.shape,hs.complete,htr,hps⟩
  cases group with
  | none => exact ⟨⟨m,ps⟩,F,L,by simp [start,hcons],rfl,hgood,hrooted,hnone⟩
  | some r =>
    obtain ⟨min,size,allocating⟩ := r
    have hempty : ∀ t, t ≠ .pid → (m.enableGroupTracking min size allocating).pointers t = [] := by
      intro t ht
      cases t with
      | pid => exact absurd rfl ht
      | login => exact hnone .login ht
      | environment => exact hnone .environment ht
      | group => simp [Monitor.pointers,enableGroupTracking]
    refine ⟨⟨m.enableGroupTracking min size allocating,ps⟩,F,L,by simp [start,hcons],rfl,?_,hrooted,
      hempty⟩
    apply hgood.retracked
    refine ⟨fun t g hg => ?_,htr.nodup⟩
    by_cases htp : t = .pid
    · subst htp
      exact htr.valid .pid g hg
    · have hg' : g ∈ (m.enableGroupTracking min size allocating).pointers t := hg
      rw [hempty t htp] at hg'
      simp at hg'

theorem Good.perform {e : List ProcInfo × Operation} (h : Good w F L)
    (hr : Rooted root w.monitor) (hps : e.2.takesSnapshot = true → Listing e.1)
    (hw : e.2.takesSnapshot = true → watched e.1 root = true) (hclean : Clean w e) :
    ∃ w' F' L', w.perform e = some w' ∧ Good w' F' L' ∧ Rooted root w'.monitor ∧
      w'.last = if e.2.takesSnapshot then e.1 else w.last := by
  cases htr : e.2.tracks with
  | true =>
    have hno : e.2.takesSnapshot = false := by
      cases hop : e.2 <;> simp [hop,Operation.tracks] at htr <;> rfl
    obtain ⟨m',hrun,hgood,hf,ht⟩ := h.track htr
    refine ⟨⟨m',w.last⟩,F,L,by simp [World.perform,hrun,hno],hgood,?_,by simp [hno]⟩
    unfold Rooted
    rw [hf,ht]
    exact hr
  | false =>
    obtain ⟨m',F',L',hrun,hs,ht⟩ := h.step htr hps fun hop => by rw [hr.watched,hw hop]
    refine ⟨⟨m',if e.2.takesSnapshot then e.1 else w.last⟩,F',L',by simp [World.perform,hrun],
      ⟨hs.shape,hs.complete,ht hclean,?_⟩,hr.stepped h.shape.tree hs,rfl⟩
    show Listing (if e.2.takesSnapshot then e.1 else w.last)
    split
    · rename_i hop
      exact hps hop
    · exact h.listing

def Processes (ps : List ProcInfo) : Prop :=
  (ps.map ProcInfo.pid).Nodup ∧ ∀ pi ∈ ps, 0 < pi.pid
deriving Decidable

theorem Processes.listing (h : Processes ps) : Listing ps :=
  h.1.sublist (List.filter_sublist.map ProcInfo.pid)

/-- A snapshot is taken of a proper listing, with the watcher of the root in it. -/
def Supplied (root : ProcFamily) (e : List ProcInfo × Operation) : Prop :=
  e.2.takesSnapshot = true → Processes e.1 ∧ watched e.1 root = true
deriving Decidable

/-- In every run the families stay consistent: one tree, each process in one family. -/
theorem consistent_run (pid : Pid) (birthday : Nat) (exceptIfPidDies : Bool)
    (group : Option (BitVec 32 × Nat × Bool)) (ps : List ProcInfo)
    (ops : List (List ProcInfo × Operation)) (hps : Processes ps)
    (hroot : ∃ pi ∈ ps, pi.pid = pid ∧ pi.birthday = birthday) :
    ∃ w0, start pid birthday exceptIfPidDies group ps = some w0 ∧
      (Along perform (fun w e => Supplied (rootFamily pid birthday exceptIfPidDies) e ∧ Clean w e)
          w0 ops →
        ∃ w F L, run perform w0 ops = some w ∧ w.Consistent F L) := by
  obtain ⟨pi,hpi,rfl,rfl⟩ := hroot
  have hw : watched ps (rootFamily pi.pid pi.birthday exceptIfPidDies) = true := by
    cases exceptIfPidDies with
    | false => simp [watched,rootFamily]
    | true =>
      simp only [watched,rootFamily,if_true,Bool.or_eq_true,List.any_eq_true]
      exact .inr ⟨pi,hpi,by simp⟩
  obtain ⟨w0,F0,L0,hstart,hlast,hgood,hrooted,-⟩ :=
    start_good group (ne_of_gt (hps.2 pi hpi)) hps.listing hw
  refine ⟨w0,hstart,fun hok => ?_⟩
  have hstep : ∀ w e, (∃ F L, Good w F L ∧
      Rooted (rootFamily pi.pid pi.birthday exceptIfPidDies) w.monitor ∧
        ∀ pi ∈ w.last, 0 < pi.pid) →
      Supplied (rootFamily pi.pid pi.birthday exceptIfPidDies) e ∧ Clean w e →
      ∃ w', w.perform e = some w' ∧ ∃ F L, Good w' F L ∧
        Rooted (rootFamily pi.pid pi.birthday exceptIfPidDies) w'.monitor ∧
        ∀ pi ∈ w'.last, 0 < pi.pid := by
    rintro w e ⟨F,L,hg,hr,hpos⟩ ⟨hsup,hclean⟩
    obtain ⟨w',F',L',hperf,hg',hr',hlast'⟩ :=
      hg.perform hr (fun hop => (hsup hop).1.listing) (fun hop => (hsup hop).2) hclean
    refine ⟨w',hperf,F',L',hg',hr',?_⟩
    rw [hlast']
    split
    · rename_i hop
      exact (hsup hop).1.2
    · exact hpos
  obtain ⟨w,hrun,F,L,hg,-,hpos⟩ :=
    run_total _ hstep hok ⟨F0,L0,hgood,hrooted,hlast ▸ hps.2⟩
  exact ⟨w,F,L,hrun,hg.consistent hpos⟩

/-- A family is registered and tracked in all ways, one of its processes exits, a new one appears,
and the family goes. -/
theorem consistent_run_sample :
    ∃ w0, start 10 5 true (some (100,2,true))
    [⟨10,1,5,0,0,0,[],[]⟩,⟨11,10,6,0,0,0,[],[]⟩] = some w0 ∧
      ∃ w F L, run perform w0
        [([⟨10,1,5,1,0,0,[],[]⟩,⟨11,10,6,1,1,0,[],[]⟩],.registerSubfamily 11 10 (-1)),
          ([],.trackFamilyViaEnvironment 11 ["A"]),([],.trackFamilyViaLogin 11 7),
          ([],.trackFamilyViaSupplementaryGroup 11 0),([],.trackFamilyViaEnvironment 0 ["B"]),
          ([⟨10,1,5,2,0,0,[],[]⟩,⟨12,1,8,1,0,7,[],[]⟩],.signalFamily 11),
          ([],.getFamilyUsage 11),([],.unregisterSubfamily 11)] = some w ∧ w.Consistent F L := by
  obtain ⟨w0,hstart,hrun⟩ := consistent_run 10 5 true (some (100,2,true))
    [⟨10,1,5,0,0,0,[],[]⟩,⟨11,10,6,0,0,0,[],[]⟩]
    [([⟨10,1,5,1,0,0,[],[]⟩,⟨11,10,6,1,1,0,[],[]⟩],.registerSubfamily 11 10 (-1)),
      ([],.trackFamilyViaEnvironment 11 ["A"]),([],.trackFamilyViaLogin 11 7),
      ([],.trackFamilyViaSupplementaryGroup 11 0),([],.trackFamilyViaEnvironment 0 ["B"]),
      ([⟨10,1,5,2,0,0,[],[]⟩,⟨12,1,8,1,0,7,[],[]⟩],.signalFamily 11),
      ([],.getFamilyUsage 11),([],.unregisterSubfamily 11)] (by decide) ⟨_,List.mem_cons_self,
        rfl,rfl⟩
  refine ⟨w0,hstart,hrun ?_⟩
  have hok : ((start 10 5 true (some (100,2,true))
      [⟨10,1,5,0,0,0,[],[]⟩,⟨11,10,6,0,0,0,[],[]⟩]).map fun w =>
      decide (Along perform (fun w e => Supplied (rootFamily 10 5 true) e ∧ Clean w e) w
        [([⟨10,1,5,1,0,0,[],[]⟩,⟨11,10,6,1,1,0,[],[]⟩],.registerSubfamily 11 10 (-1)),
          ([],.trackFamilyViaEnvironment 11 ["A"]),([],.trackFamilyViaLogin 11 7),
          ([],.trackFamilyViaSupplementaryGroup 11 0),([],.trackFamilyViaEnvironment 0 ["B"]),
          ([⟨10,1,5,2,0,0,[],[]⟩,⟨12,1,8,1,0,7,[],[]⟩],.signalFamily 11),
          ([],.getFamilyUsage 11),([],.unregisterSubfamily 11)])) = some true := by
    decide
  rw [hstart] at hok
  exact of_decide_eq_true (Option.some.inj hok)

/-- Two mappings of one family in the same tracker: after the family is gone one of them is left. -/
theorem consistent_run_fails :
    ∃ w0 w, start 10 5 true none [⟨10,1,5,0,0,0,[],[]⟩,⟨11,10,6,0,0,0,[],[]⟩] = some w0 ∧
      run perform w0 [([⟨10,1,5,0,0,0,[],[]⟩,⟨11,10,6,0,0,0,[],[]⟩],.registerSubfamily 11 0 (-1)),
        ([],.trackFamilyViaEnvironment 11 ["A"]),([],.trackFamilyViaEnvironment 11 ["B"]),
        ([],.unregisterSubfamily 11)] = some w ∧
      Supplied (rootFamily 10 5 true)
        ([⟨10,1,5,0,0,0,[],[]⟩,⟨11,10,6,0,0,0,[],[]⟩],.registerSubfamily 11 0 (-1)) ∧
      ¬∃ F L, w.Consistent F L := by
  have hall : ((start 10 5 true none [⟨10,1,5,0,0,0,[],[]⟩,⟨11,10,6,0,0,0,[],[]⟩]).bind fun w0 =>
      run perform w0 [([⟨10,1,5,0,0,0,[],[]⟩,⟨11,10,6,0,0,0,[],[]⟩],.registerSubfamily 11 0 (-1)),
        ([],.trackFamilyViaEnvironment 11 ["A"]),([],.trackFamilyViaEnvironment 11 ["B"]),
        ([],.unregisterSubfamily 11)]).map
      (fun w => decide (2 ∈ w.monitor.pointers .environment ∧
        (w.monitor.families 2).isSome = false)) = some true := by
    decide
  obtain ⟨w,hw,hstale⟩ := Option.map_eq_some_iff.mp hall
  obtain ⟨w0,hstart,hrun⟩ := Option.bind_eq_some_iff.mp hw
  refine ⟨w0,w,hstart,hrun,by decide,?_⟩
  rintro ⟨F,L,hcons⟩
  obtain ⟨hin,hgone⟩ := of_decide_eq_true hstale
  have hsome := hcons.families 2 (hcons.pointers .environment 2 hin)
  rw [hgone] at hsome
  simp at hsome

end Condor.Procd.World
