import Condor.Procd.Members

/-!
# Processes that have exited

What a family has used is what its members have used and what is kept of those that have exited.
Nothing is lost when members exit or move, or families fold.
-/

namespace Condor.Procd.Monitor

open Condor.Lib List Function Option

inductive Gauge
  | user
  | sys
  | procs
  deriving DecidableEq

def Gauge.live : Gauge → ProcInfo → Nat
  | .user, pi => pi.userTime
  | .sys, pi => pi.sysTime
  | .procs, _ => 1

def Gauge.exited : Gauge → ProcFamily → Nat
  | .user, fam => fam.exitedUserCpuTime
  | .sys, fam => fam.exitedSysCpuTime
  | .procs, _ => 0

def memberLoad (k : Gauge) (m : Monitor) (x : Nat) : Nat :=
  (m.members x).elim 0 fun c => k.live c.procInfo

def load (k : Gauge) (m : Monitor) (L : Nat → List Nat) (g : Nat) : Nat :=
  ((L g).map (memberLoad k m)).sum + (m.families g).elim 0 k.exited

variable {m m' : Monitor} {L : Nat → List Nat} (k : Gauge)

theorem load_congr {L' : Nat → List Nat} {g : Nat} (hL : L' g = L g)
    (hm : ∀ x ∈ L g, memberLoad k m' x = memberLoad k m x) (hf : m'.families g = m.families g) :
    load k m' L' g = load k m L g := by
  unfold load
  rw [hL,hf,map_congr_left hm]

private theorem load_setMember {x : Nat} {c d : ProcFamilyMember} (hc : m.members x = some c)
    (hp : d.procInfo = c.procInfo) (g : Nat) : load k (m.setMember x d) L g = load k m L g := by
  apply load_congr
  · rfl
  · intro y _
    by_cases hy : y = x
    · simp [memberLoad,setMember,hy,hc,hp]
    · simp [memberLoad,setMember,hy]
  · rfl

variable {fam : ProcFamily}

private theorem MemberShape.load_buried (h : MemberShape m L) {g x : Nat} {as bs : List Nat}
    {c : ProcFamilyMember} (hL : L g = as ++ x :: bs)
    (hc : m.members x = some c) (hfam : m.families g = some fam) (hk : k ≠ .procs)
    (b n : Option Nat) (g' : Nat) :
    load k ((m.buried g fam x c).unlinked g b n) (update L g (as ++ bs)) g' =
      load k m L g' := by
  have htime : ∀ y, y ≠ x →
      memberLoad k ((m.buried g fam x c).unlinked g b n) y = memberLoad k m y := by
    intro y hy
    simp [memberLoad,Monitor.buried,unlinked,hy]
  by_cases hg : g' = g
  · subst hg
    have hnd := h.nodup g'
    rw [hL,nodup_append] at hnd
    obtain ⟨-,hndx,hdis⟩ := hnd
    have hxb := (List.nodup_cons.mp hndx).1
    have has : as.map (memberLoad k ((m.buried g' fam x c).unlinked g' b n)) =
        as.map (memberLoad k m) :=
      map_congr_left fun y hy => htime y fun hyx => hdis y hy x mem_cons_self hyx
    have hbs : bs.map (memberLoad k ((m.buried g' fam x c).unlinked g' b n)) =
        bs.map (memberLoad k m) :=
      map_congr_left fun y hy => htime y fun hyx => hxb (hyx ▸ hy)
    have hx : memberLoad k m x = k.live c.procInfo := by simp [memberLoad,hc]
    unfold load
    rw [update_self,hL,map_append,map_append,map_cons,has,hbs,hx,hfam]
    simp only [sum_append,sum_cons,Monitor.buried,unlinked,update_self,Option.elim]
    cases k with
    | user | sys => simp only [Gauge.exited,Gauge.live]; omega
    | procs => exact absurd rfl hk
  · apply load_congr k (update_of_ne hg _ _)
    · intro y hy
      refine htime y fun hyx => hg (h.disjoint hy ?_)
      rw [hL,hyx]
      simp
    · simp [Monitor.buried,unlinked,hg]

def survivor (c : ProcFamilyMember) : Option ProcFamilyMember :=
  if c.stillAlive then some { c with stillAlive := false } else none

private theorem removeExitedFrom_spec (f : Nat) (as bs : List Nat) {n : Nat}
    (h : MemberShape m L) (hL : L f = as ++ bs) (hn : bs.length < n)
    (hfam : m.families f = some fam) :
    ∃ m' L', removeExitedFrom f n m as.getLast? bs.head? = some m' ∧ SameTree m m' ∧
      MemberShape m' L' ∧ (∀ k g, k ≠ .procs → load k m' L' g = load k m L g) ∧
      ∀ z, m'.members z = if z ∈ bs then (m.members z).bind survivor else m.members z := by
  induction bs generalizing m L as n fam with
  | nil =>
    cases n with
    | zero => simp at hn
    | succ n => exact ⟨m,L,rfl,SameTree.rfl,h,fun _ _ _ => rfl,by simp⟩
  | cons x bs ih =>
    have hx : x ∈ L f := by simp [hL]
    have hnd := h.nodup f
    rw [hL,nodup_append] at hnd
    have hxb := (List.nodup_cons.mp hnd.2.1).1
    obtain ⟨c,hc,hcf⟩ := (h.mem f x).mp hx
    have hchain := h.chain f
    rw [hL] at hchain
    have hnext : m.neighbours.next x = bs.head? := hchain.around.2
    cases n with
    | zero => simp at hn
    | succ n =>
      have hn' : bs.length < n := by simpa using hn
      cases hal : c.stillAlive with
      | true =>
        have hset : MemberShape (m.setMember x { c with stillAlive := false }) L :=
          h.setMember hc rfl rfl
        have hL' : L f = (as ++ [x]) ++ bs := by simp [hL]
        obtain ⟨m',L',hrun,hsame,hshape,hload,hmem⟩ := ih (as ++ [x]) hset hL' hn' hfam
        refine ⟨m',L',?_,(setMember_sameTree m x _).trans hsame,hshape,?_,?_⟩
        · simp only [removeExitedFrom,head?_cons,hc,bind_eq_bind,bind_some,hal,
            if_true,hnext]
          simpa using hrun
        · intro k g hk
          rw [hload k g hk,load_setMember k (d := { c with stillAlive := false }) hc rfl]
        · intro z
          rw [hmem z]
          by_cases hz : z = x
          · subst hz
            simp [hxb,setMember,hc,survivor,hal]
          · simp [hz,setMember]
      | false =>
        have hbur := h.buried fam hL hc
        obtain ⟨fam',hfam'⟩ : ∃ fam', ((m.buried f fam x c).unlinked f as.getLast?
            bs.head?).families f = some fam' := ⟨_,update_self f _ m.families⟩
        obtain ⟨m',L',hrun,hsame,hshape,hload,hmem⟩ := ih as hbur (by simp) hn' hfam'
        refine ⟨m',L',?_,(buried_sameTree hfam _ _).trans hsame,hshape,?_,?_⟩
        · simp only [removeExitedFrom,head?_cons,hc,bind_eq_bind,bind_some,hal,
            Bool.false_eq_true,if_false,hnext,removeExited,hfam,h.lookup hc]
          exact hrun
        · intro k g hk
          rw [hload k g hk,h.load_buried k hL hc hfam hk]
        · intro z
          rw [hmem z]
          by_cases hz : z = x
          · subst hz
            simp [hxb,Monitor.buried,unlinked,hc,survivor,hal]
          · simp [hz,Monitor.buried,unlinked]

def Swept (m m' : Monitor) (gs : List Nat) : Prop :=
  ∀ z, m'.members z =
    (m.members z).bind fun c => if c.family ∈ gs then survivor c else some c

theorem removeExitedProcesses_spec {f : Nat} (h : MemberShape m L)
    (hfam : m.families f = some fam) :
    ∃ m' L', m.removeExitedProcesses f = some m' ∧ SameTree m m' ∧ MemberShape m' L' ∧
      (∀ k g, k ≠ .procs → load k m' L' g = load k m L g) ∧ Swept m m' [f] := by
  obtain ⟨m',L',hrun,hsame,hshape,hload,hmem⟩ := removeExitedFrom_spec f [] (L f)
    (n := m.nextMember + 1) h rfl (Nat.lt_succ_of_le (h.length_le f)) hfam
  refine ⟨m',L',?_,hsame,hshape,hload,?_⟩
  · rw [removeExitedProcesses,(h.chain f).head_eq]
    exact hrun
  · intro z
    rw [hmem z]
    cases hc : m.members z with
    | none => simp
    | some c =>
      have hz : z ∈ L f ↔ c.family = f := by
        rw [h.mem f z,hc]
        simp
      simp [hz]

theorem survivor_family {c d : ProcFamilyMember}
    (h : survivor c = some d) : d.family = c.family := by
  unfold survivor at h
  split at h
  · obtain rfl := some.inj h
    rfl
  · simp at h

theorem removeExitedProcesses_foldl {gs : List Nat} (h : MemberShape m L) (hnd : gs.Nodup)
    (hfam : ∀ g ∈ gs, (m.families g).isSome = true) :
    ∃ m' L', gs.foldl (fun s f => s.bind fun m => m.removeExitedProcesses f) (some m) = some m' ∧
      SameTree m m' ∧ MemberShape m' L' ∧ (∀ k g, k ≠ .procs → load k m' L' g = load k m L g) ∧
      Swept m m' gs := by
  induction gs generalizing m L with
  | nil =>
    refine ⟨m,L,rfl,SameTree.rfl,h,fun _ _ _ => rfl,fun z => ?_⟩
    cases m.members z <;> simp
  | cons f gs ih =>
    obtain ⟨hf,hnd⟩ := List.nodup_cons.mp hnd
    obtain ⟨fam,hff⟩ := Option.isSome_iff_exists.mp (hfam f mem_cons_self)
    obtain ⟨m1,L1,hrun,hsame,hshape,hload,hswept⟩ := removeExitedProcesses_spec h hff
    have hfam1 : ∀ g ∈ gs, (m1.families g).isSome = true := by
      intro g hg
      have := hfam g (mem_cons_of_mem f hg)
      rw [← isSome_map,← hsame.families g,isSome_map] at this
      exact this
    obtain ⟨m2,L2,hrun2,hsame2,hshape2,hload2,hswept2⟩ := ih hshape hnd hfam1
    refine ⟨m2,L2,?_,hsame.trans hsame2,hshape2,fun k g hk =>
      (hload2 k g hk).trans (hload k g hk),?_⟩
    · rw [foldl_cons,bind_some,hrun]
      exact hrun2
    · intro z
      rw [hswept2 z,hswept z]
      cases hc : m.members z with
      | none => simp
      | some c =>
        by_cases hcf : c.family = f
        · simp only [bind_some,hcf,if_true,mem_cons,true_or]
          cases hs : survivor c with
          | none => simp
          | some d =>
            have hd := survivor_family hs
            simp [hd,hcf,hf]
        · simp [hcf]

end Condor.Procd.Monitor
