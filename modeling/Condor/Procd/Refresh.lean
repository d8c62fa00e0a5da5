import Condor.Procd.Totals

/-!
# The processes that have been seen before

A snapshot begins with the members: those that are in the new list are marked, and those that are
not have exited.
-/

namespace Condor.Procd.Monitor

open Condor.Lib List Function Option

variable {m m' : Monitor} {F : Forest Nat} {L : Nat → List Nat}

def refreshed (pis : List ProcInfo) (c : ProcFamilyMember) : ProcFamilyMember :=
  match pis.find? fun pi => pi.pid = c.procInfo.pid && pi.birthday = c.procInfo.birthday with
  | some pi => { c with procInfo := pi, stillAlive := true }
  | none => c

def Seen (m : Monitor) (pi : ProcInfo) : Prop :=
  ∃ x c, m.members x = some c ∧ c.procInfo.pid = pi.pid ∧ c.procInfo.birthday = pi.birthday

variable {pis : List ProcInfo}

private theorem refreshed_cons_of_ne {pi : ProcInfo} {c : ProcFamilyMember}
    (h : ¬(pi.pid = c.procInfo.pid ∧ pi.birthday = c.procInfo.birthday)) :
    refreshed (pi :: pis) c = refreshed pis c := by
  have hf : (pi.pid = c.procInfo.pid && pi.birthday = c.procInfo.birthday) = false := by
    simpa using h
  simp [refreshed,hf]

private theorem refreshed_of_pid {c : ProcFamilyMember}
    (h : ∀ pi ∈ pis, pi.pid ≠ c.procInfo.pid) : refreshed pis c = c := by
  have hnone : (pis.find? fun pi =>
      pi.pid = c.procInfo.pid && pi.birthday = c.procInfo.birthday) = none := by
    rw [find?_eq_none]
    intro pi hpi
    simp [h pi hpi]
  simp [refreshed,hnone]

theorem markAlive_spec (h : Shape m F L) (hnd : (pis.map ProcInfo.pid).Nodup)
    (hpos : ∀ pi ∈ pis, pi.pid ≠ 0) :
    ∃ m' rest, m.markAlive pis = some (m',rest) ∧ SameTree m m' ∧ Shape m' F L ∧
      m'.families = m.families ∧ (∀ z, m'.members z = (m.members z).map (refreshed pis)) ∧
        rest.Sublist pis ∧
      ∀ pi ∈ pis, (pi ∈ rest ↔ ¬Seen m pi) := by
  induction pis generalizing m with
  | nil =>
    refine ⟨m,[],rfl,SameTree.rfl,h,rfl,fun z => ?_,List.Sublist.refl _,by simp⟩
    cases m.members z <;> simp [refreshed]
  | cons pi pis ih =>
    obtain ⟨hpi,hnd⟩ := List.nodup_cons.mp hnd
    have hpid : ∀ pi' ∈ pis, pi'.pid ≠ pi.pid := fun pi' h' he =>
      hpi (he ▸ mem_map_of_mem h')
    have hne : ∀ pi' ∈ pis, pi' ≠ pi := fun pi' h' he => hpid pi' h' (he ▸ rfl)
    have hpos' : ∀ pi' ∈ pis, pi'.pid ≠ 0 := fun pi' h' => hpos pi' (mem_cons_of_mem pi h')
    -- a process that nobody knows stays on the list
    have hstay : ¬Seen m pi → ∃ m' rest, m.markAlive pis = some (m',rest) ∧ SameTree m m' ∧
        Shape m' F L ∧ m'.families = m.families ∧
        (∀ z, m'.members z = (m.members z).map (refreshed (pi :: pis))) ∧
        (pi :: rest).Sublist (pi :: pis) ∧
        ∀ pi' ∈ pi :: pis, (pi' ∈ pi :: rest ↔ ¬Seen m pi') := by
      intro hnew
      obtain ⟨m',rest,hrun,hsame,hshape,hfams,hmem,hsub,hrest⟩ := ih h hnd hpos'
      refine ⟨m',rest,hrun,hsame,hshape,hfams,fun z => ?_,hsub.cons_cons pi,fun pi' hpi' => ?_⟩
      · rw [hmem z]
        cases hc : m.members z with
        | none => rfl
        | some c =>
          simp only [map_some]
          rw [refreshed_cons_of_ne fun he => hnew ⟨z,c,hc,he.1.symm,he.2.symm⟩]
      · rcases List.mem_cons.mp hpi' with rfl | hin
        · simpa using hnew
        · rw [mem_cons,← hrest pi' hin]
          simp [hne pi' hin]
    rw [markAlive,if_neg (hpos pi mem_cons_self)]
    cases ht : m.memberTable pi.pid with
    | none =>
      have hnew : ¬Seen m pi := by
        rintro ⟨x,c,hc,hp,-⟩
        have := h.members.lookup hc
        rw [hp,ht] at this
        simp at this
      obtain ⟨m',rest,hrun,hspec⟩ := hstay hnew
      exact ⟨m',pi :: rest,by simp [hrun],hspec⟩
    | some x =>
      obtain ⟨c,hc,hcp⟩ := (h.members.table _ _).mp ht
      by_cases hb : c.procInfo.birthday = pi.birthday
      · have hset : Shape (m.stillAlive x c pi) F L := h.setMember hc rfl hcp.symm
        obtain ⟨m',rest,hrun,hsame,hshape,hfams,hmem,hsub,hrest⟩ := ih hset hnd hpos'
        refine ⟨m',rest,by simp [hc,hb,hrun],(setMember_sameTree m x _).trans hsame,hshape,
          hfams,?_,hsub.cons pi,?_⟩
        · intro z
          rw [hmem z]
          by_cases hz : z = x
          · subst hz
            have hfirst : refreshed (pi :: pis) c = { c
              with procInfo := pi, stillAlive := true } := by
              simp [refreshed,hcp,hb]
            simp only [stillAlive,setMember,update_self,hc,map_some,hfirst]
            rw [refreshed_of_pid fun pi' h' => hpid pi' h']
          · simp only [stillAlive,setMember,update_of_ne hz]
            cases hd : m.members z with
            | none => rfl
            | some d =>
              have hdp : ¬(pi.pid = d.procInfo.pid ∧ pi.birthday = d.procInfo.birthday) := fun he =>
                hz (h.members.pid_injective hd hc (he.1.symm.trans hcp.symm))
              simp only [map_some,refreshed_cons_of_ne hdp]
        · intro pi' hpi'
          rcases List.mem_cons.mp hpi' with rfl | hin
          · have hseen : Seen m pi' := ⟨x,c,hc,hcp,hb⟩
            refine ⟨fun hr => absurd (hsub.subset hr) fun h' => hne pi' h' rfl,fun hr => ?_⟩
            exact absurd hseen hr
          · rw [hrest pi' hin]
            refine not_congr ⟨?_,?_⟩
            · rintro ⟨z,d,hd,hdp,hdb⟩
              by_cases hz : z = x
              · subst hz
                obtain rfl : { c with procInfo := pi, stillAlive := true } = d := by
                  simpa [stillAlive,setMember] using hd
                exact absurd hdp.symm (hpid pi' hin)
              · exact ⟨z,d,by simpa [stillAlive,setMember,hz] using hd,hdp,hdb⟩
            · rintro ⟨z,d,hd,hdp,hdb⟩
              have hz : z ≠ x := by
                rintro rfl
                obtain rfl : c = d := some.inj (hc.symm.trans hd)
                exact hpid pi' hin (hdp.symm.trans hcp)
              exact ⟨z,d,by simpa [stillAlive,setMember,hz] using hd,hdp,hdb⟩
      · have hnew : ¬Seen m pi := by
          rintro ⟨z,d,hd,hdp,hdb⟩
          obtain rfl : z = x := h.members.pid_injective hd hc (hdp.trans hcp.symm)
          obtain rfl : c = d := some.inj (hc.symm.trans hd)
          exact hb hdb
        obtain ⟨m',rest,hrun,hspec⟩ := hstay hnew
        exact ⟨m',pi :: rest,by simp [hc,hb,hrun],hspec⟩

theorem exits_spec (h : Shape m F L) :
    ∃ m1 m2 L', m.links.visit (fun m family => m.bind fun m => m.removeExitedProcesses family)
        m.nextFamily (some m) (some m.tree) = some m1 ∧
      m1.removeExitedProcesses m1.everybodyElse = some m2 ∧ SameTree m m2 ∧ Shape m2 F L' ∧
      (∀ k g, k ≠ .procs → load k m2 L' g = load k m L g) ∧
      ∀ z, m2.members z = (m.members z).bind survivor := by
  have hall : ∀ g ∈ F.ids, (m.families g).isSome = true := fun g hg =>
    (h.tree.families g).mpr (.inl hg)
  obtain ⟨m1,L1,hrun1,hsame1,hshape1,hload1,hswept1⟩ :=
    removeExitedProcesses_foldl h.members h.tree.nodup hall
  have helse : (m1.families m1.everybodyElse).isSome = true := by
    rw [hsame1.isSome,hsame1.everybodyElse]
    exact (h.tree.families _).mpr (.inr rfl)
  obtain ⟨fam,hfam⟩ := Option.isSome_iff_exists.mp helse
  obtain ⟨m2,L2,hrun2,hsame2,hshape2,hload2,hswept2⟩ := removeExitedProcesses_spec hshape1 hfam
  have hmem : ∀ z, m2.members z = (m.members z).bind survivor := by
    intro z
    rw [hswept2 z,hswept1 z,hsame1.everybodyElse]
    cases hc : m.members z with
    | none => rfl
    | some c =>
      simp only [bind_some,mem_singleton]
      by_cases hcf : c.family ∈ F.ids
      · rw [if_pos hcf]
        cases hs : survivor c with
        | none => rfl
        | some d =>
          have hd : d.family ≠ m.everybodyElse := by
            rw [survivor_family hs]
            exact fun he => h.tree.everybodyElse (he ▸ hcf)
          simp [hd]
      · have hce := ((h.tree.families _).mp (h.home z c hc)).resolve_left hcf
        simp [hce,h.tree.everybodyElse]
  refine ⟨m1,m2,L2,?_,hrun2,hsame1.trans hsame2,⟨h.tree.congr (hsame1.trans hsame2),hshape2,?_⟩,
    fun k g hk => (hload2 k g hk).trans (hload1 k g hk),hmem⟩
  · rw [h.tree.holds.visit_eq _ h.tree.length_lt]
    exact hrun1
  · intro z c hc
    rw [hmem z,bind_eq_some_iff] at hc
    obtain ⟨d,hd,hs⟩ := hc
    rw [survivor_family hs,(hsame1.trans hsame2).isSome]
    exact h.home z d hd

end Condor.Procd.Monitor
