import Condor.Procd.Refresh

/-!
# Finding the families of new processes

A tracker gives a process to a family when it has none yet, or when the family is below the one
that it has.
-/

namespace Condor.Procd.Monitor

open Condor.Lib List Function Option

variable {m m' m0 : Monitor} {F : Forest Nat} {L L0 : Nat → List Nat} {ps rest : List ProcInfo}

private theorem TreeShape.isAbove_spec (h : TreeShape m F) (g : Nat) {n node : Nat}
    (hnode : node ∈ F.ids)
    (hn : F.ids.length < n + (F.under node).ids.length) :
    ∃ b, m.isAbove g n node = some b ∧ (b = true → node ∈ (F.under g).ids) := by
  induction n generalizing node with
  | zero =>
    have := (F.under_sublist node).length_le
    omega
  | succ n ih =>
    rcases h.parent_cases hnode with ⟨-,hpar⟩ | ⟨p,hp,hpar,hroot⟩
    · exact ⟨false,by simp [isAbove,hpar],by simp⟩
    · have hin := Forest.mem_ids_of_mem_roots hroot
      by_cases hpg : p = g
      · exact ⟨true,by simp [isAbove,hpar,hpg],fun _ => hpg ▸ hin⟩
      · have hlt := Forest.length_under_lt h.nodup hin
        obtain ⟨b,hb,hup⟩ := ih hp (by omega)
        refine ⟨b,by simp [isAbove,hpar,hpg,hb],fun ht => ?_⟩
        exact Forest.mem_under_trans h.nodup (hup ht) hin

def Known (m : Monitor) (pi : ProcInfo) : Prop := ∃ x c, m.members x = some c ∧ c.procInfo = pi

/-- A snapshot that is half done: the processes of `rest` may still be without a family. -/
structure Gathered (ps rest : List ProcInfo) (F : Forest Nat) (m0 : Monitor) (L0 : Nat → List Nat)
    (m : Monitor) (L : Nat → List Nat) : Prop where
  same : SameTree m0 m
  shape : Shape m F L
  unmarked : ∀ x c, m.members x = some c → c.stillAlive = false
  listed : ∀ x c, m.members x = some c → c.procInfo ∈ ps
  known : ∀ pi ∈ ps, Known m pi ∨ (m.memberTable pi.pid = none ∧ pi ∈ rest)
  total : ∀ k z, k ≠ .procs → z ∈ F.ids → total k m0 L0 F z ≤ total k m L F z

theorem eq_of_pid (hnd : (ps.map ProcInfo.pid).Nodup) {pi pi' : ProcInfo} (h : pi ∈ ps)
    (h' : pi' ∈ ps) (hp : pi.pid = pi'.pid) : pi = pi' :=
  inj_on_of_nodup_map hnd h h' hp

variable {pi : ProcInfo}

theorem Gathered.added (h : Gathered ps rest F m0 L0 m L) (hnd : (ps.map ProcInfo.pid).Nodup)
    {g : Nat} (hps : pi ∈ ps) (hpi : m.memberTable pi.pid = none)
    (hg : (m.families g).isSome = true) :
    Gathered ps rest F m0 L0 (m.added g pi) (update L g (m.nextMember :: L g)) := by
  constructor
  · exact h.same.trans (added_sameTree m g pi)
  · exact h.shape.added hpi hg
  · intro x c hc
    by_cases hx : x = m.nextMember
    · obtain rfl : (⟨g,pi,false⟩ : ProcFamilyMember) = c := by
        simpa [Monitor.added,hx] using hc
      rfl
    · exact h.unmarked x c (by simpa [Monitor.added,hx] using hc)
  · intro x c hc
    by_cases hx : x = m.nextMember
    · obtain rfl : (⟨g,pi,false⟩ : ProcFamilyMember) = c := by
        simpa [Monitor.added,hx] using hc
      exact hps
    · exact h.listed x c (by simpa [Monitor.added,hx] using hc)
  · intro pi' hps'
    rcases h.known pi' hps' with ⟨x,c,hc,hcp⟩ | ⟨hnone,hrest⟩
    · have hx : x ≠ m.nextMember := Nat.ne_of_lt (h.shape.members.fresh x c hc)
      exact .inl ⟨x,c,by simpa [Monitor.added,hx] using hc,hcp⟩
    · by_cases hp : pi'.pid = pi.pid
      · obtain rfl := eq_of_pid hnd hps' hps hp
        exact .inl ⟨m.nextMember,⟨g,pi',false⟩,by simp [Monitor.added],rfl⟩
      · exact .inr ⟨by simpa [Monitor.added,hp] using hnone,hrest⟩
  · intro k z hk hz
    refine (h.total k z hk hz).trans (total_mono hz fun y _ => ?_)
    rw [h.shape.members.load_added]
    exact Nat.le_add_right _ _

theorem Gathered.moved (h : Gathered ps rest F m0 L0 m L) {x g : Nat} {c : ProcFamilyMember}
    (hc : m.members x = some c) (hg : g ∈ (F.under c.family).ids) :
    ∃ m' L', m.moveToSubfamily x g = some m' ∧ Gathered ps rest F m0 L0 m' L' ∧
      m'.memberTable = m.memberTable ∧
      m'.members = update m.members x (some { c with family := g }) := by
  have hgF := (F.under_sublist c.family).subset hg
  have hsome := (h.shape.tree.families g).mpr (.inl hgF)
  have hne : g ≠ c.family := fun hgc => Forest.not_mem_under h.shape.tree.nodup (hgc ▸ hg)
  obtain ⟨m',as,bs,hrun,hL,hm',hshape⟩ := h.shape.moveToSubfamily hc hsome hne
  subst hm'
  refine ⟨_,_,hrun,⟨?_,hshape,?_,?_,?_,?_⟩,rfl,rfl⟩
  · exact h.same.trans (relinked_sameTree m x c c.family g _ _)
  · intro y d hd
    by_cases hy : y = x
    · obtain rfl : { c with family := g } = d := by simpa [relinked,hy] using hd
      exact h.unmarked x c hc
    · exact h.unmarked y d (by simpa [relinked,unlinked,hy] using hd)
  · intro y d hd
    by_cases hy : y = x
    · obtain rfl : { c with family := g } = d := by simpa [relinked,hy] using hd
      exact h.listed x c hc
    · exact h.listed y d (by simpa [relinked,unlinked,hy] using hd)
  · intro pi hpi
    rcases h.known pi hpi with ⟨y,d,hd,hdp⟩ | hrest
    · by_cases hy : y = x
      · subst hy
        obtain rfl : c = d := some.inj (hc.symm.trans hd)
        exact .inl ⟨y,{ c with family := g },by simp [relinked],hdp⟩
      · exact .inl ⟨y,d,by simpa [relinked,unlinked,hy] using hd,hdp⟩
    · exact .inr hrest
  · intro k z hk hz
    exact (h.total k z hk hz).trans (total_relinked h.shape.tree.nodup k hc hL hg _ _ z)

/-- The number of families that a process can still move to, and more when it has none. -/
def height (F : Forest Nat) (m : Monitor) (pi : ProcInfo) : Nat :=
  match m.memberTable pi.pid with
  | none => m.nextFamily
  | some x => (m.members x).elim 0 fun c => (F.under c.family).ids.length

def potential (F : Forest Nat) (m : Monitor) (pis : List ProcInfo) : Nat :=
  (pis.map (height F m)).sum

private theorem Shape.height_le (h : Shape m F L)
    (pi : ProcInfo) : height F m pi ≤ m.nextFamily := by
  unfold height
  cases m.memberTable pi.pid with
  | none => exact Nat.le_refl _
  | some x =>
    cases hc : m.members x with
    | none => simp [hc]
    | some c =>
      have hlt := h.tree.length_lt
      have hle := (F.under_sublist c.family).length_le
      simp only [hc,elim_some]
      omega

theorem Shape.potential_le (h : Shape m F L) (pis : List ProcInfo) :
    potential F m pis ≤ pis.length * m.nextFamily := by
  have hle := sum_le_card_nsmul (pis.map (height F m)) m.nextFamily ?_
  · simpa [potential] using hle
  · intro t ht
    obtain ⟨pi,-,rfl⟩ := List.mem_map.mp ht
    exact h.height_le pi

variable {pis : List ProcInfo}

private theorem potential_lt (hpi : pi ∈ pis)
    (hle : ∀ pi', height F m' pi' ≤ height F m pi') (hlt : height F m' pi < height F m pi) :
    potential F m' pis < potential F m pis :=
  sum_lt_sum _ _ (fun pi' _ => hle pi') ⟨pi,hpi,hlt⟩

private theorem Shape.potential_added (h : Shape m F L) {g : Nat}
    (hin : pi ∈ pis) (hpi : m.memberTable pi.pid = none) :
    potential F (m.added g pi) pis < potential F m pis := by
  have hlt : height F (m.added g pi) pi < height F m pi := by
    have hlen := h.tree.length_lt
    have hle := (F.under_sublist g).length_le
    have hold : height F m pi = m.nextFamily := by simp [height,hpi]
    have hnew : height F (m.added g pi) pi = (F.under g).ids.length := by
      simp [height,Monitor.added]
    omega
  apply potential_lt hin _ hlt
  intro pi'
  by_cases hp : pi'.pid = pi.pid
  · have hsame : ∀ m, height F m pi' = height F m pi := fun m => by simp [height,hp]
    rw [hsame,hsame]
    exact hlt.le
  · apply le_of_eq
    cases ht : m.memberTable pi'.pid with
    | none => simp [height,Monitor.added,hp,ht]
    | some x =>
      obtain ⟨c,hc,-⟩ := (h.members.table _ _).mp ht
      have hx : x ≠ m.nextMember := Nat.ne_of_lt (h.members.fresh x c hc)
      simp [height,Monitor.added,hp,ht,hx]

private theorem potential_moved {x g : Nat} {c : ProcFamilyMember}
    (hnd : F.ids.Nodup) (hin : pi ∈ pis) (hx : m.memberTable pi.pid = some x)
    (hc : m.members x = some c) (hg : g ∈ (F.under c.family).ids)
    (ht : m'.memberTable = m.memberTable) (hf : m'.nextFamily = m.nextFamily)
    (hm : m'.members = update m.members x (some { c with family := g })) :
    potential F m' pis < potential F m pis := by
  have hunder := Forest.length_under_lt hnd hg
  apply potential_lt hin
  · intro pi'
    unfold height
    rw [ht,hf]
    cases m.memberTable pi'.pid with
    | none => exact Nat.le_refl _
    | some y =>
      by_cases hy : y = x
      · subst hy
        simp only [hm,update_self,hc,elim_some]
        exact hunder.le
      · simp [hm,hy]
  · simp only [height,ht,hx,hm,update_self,hc,elim_some]
    exact hunder

theorem Gathered.addMemberToFamily (h : Gathered ps rest F m0 L0 m L)
    (hnd : (ps.map ProcInfo.pid).Nodup) (hsub : rest ⊆ ps) {g : Nat}
    (hpi : pi ∈ rest) (hg : g ∈ F.ids) :
    ∃ m' b L', m.addMemberToFamily g pi = some (m',b) ∧ Gathered ps rest F m0 L0 m' L' ∧
      potential F m' rest + b.toNat ≤ potential F m rest := by
  obtain ⟨fam,hfam⟩ := h.shape.tree.exists_family hg
  cases ht : m.memberTable pi.pid with
  | none =>
    refine ⟨m.added g pi,true,_,?_,h.added hnd (hsub hpi) ht (by simp [hfam]),?_⟩
    · simp [Monitor.addMemberToFamily,hfam,ht,addMember]
    · exact h.shape.potential_added hpi ht
  | some x =>
    obtain ⟨c,hc,-⟩ := (h.shape.members.table _ _).mp ht
    by_cases hgc : g = c.family
    · subst hgc
      refine ⟨m,false,L,?_,h,Nat.le_refl _⟩
      simp [Monitor.addMemberToFamily,hfam,ht,hc]
    · have hlt := h.shape.tree.length_lt
      obtain ⟨b,hb,hup⟩ := h.shape.tree.isAbove_spec c.family hg (n := m.nextFamily) (by omega)
      have hlook : m.lookupFamily fam.rootPid false = some g := by
        simpa [lookupFamily] using h.shape.tree.lookup hg hfam
      cases b with
      | false =>
        refine ⟨m,false,L,?_,h,Nat.le_refl _⟩
        simp [Monitor.addMemberToFamily,hfam,ht,hc,hgc,hlook,hb]
      | true =>
        obtain ⟨m',L',hrun,hgath,htab,hmem⟩ := h.moved hc (hup rfl)
        refine ⟨m',true,L',?_,hgath,?_⟩
        · simp [Monitor.addMemberToFamily,hfam,ht,hc,hgc,hlook,hb,hrun]
        · have hnext : m'.nextFamily = m.nextFamily := by
            rw [hgath.same.nextFamily,h.same.nextFamily]
          exact potential_moved h.shape.tree.nodup hpi ht hc (hup rfl) htab hnext hmem

def Sound (ps rest : List ProcInfo) (F : Forest Nat) (m0 : Monitor) (L0 : Nat → List Nat)
    (find : Monitor → ProcInfo → Option Nat) : Prop :=
  ∀ m L pi g, Gathered ps rest F m0 L0 m L → find m pi = some g → g ∈ F.ids

theorem Gathered.findProcesses (find : Monitor → ProcInfo → Option Nat)
    (hfind : Sound ps rest F m0 L0 find) (h : Gathered ps rest F m0 L0 m L)
    (hnd : (ps.map ProcInfo.pid).Nodup) (hsub : rest ⊆ ps) (hpis : pis ⊆ rest) :
    ∃ m' b L', Monitor.findProcesses find m pis = some (m',b) ∧ Gathered ps rest F m0 L0 m' L' ∧
      potential F m' rest + b.toNat ≤ potential F m rest := by
  induction pis generalizing m L with
  | nil => exact ⟨m,false,L,rfl,h,Nat.le_refl _⟩
  | cons pi pis ih =>
    obtain ⟨hpi,hpis⟩ := List.cons_subset.mp hpis
    obtain ⟨m1,b1,L1,hrun1,hgath1,hpot1⟩ : ∃ m1 b1 L1, m.checkProcess find pi = some (m1,b1) ∧
        Gathered ps rest F m0 L0 m1 L1 ∧ potential F m1 rest + b1.toNat ≤ potential F m rest := by
      cases hf : find m pi with
      | none => exact ⟨m,false,L,by simp [checkProcess,hf],h,Nat.le_refl _⟩
      | some g =>
        simp only [checkProcess,hf]
        exact h.addMemberToFamily hnd hsub hpi (hfind m L pi g h hf)
    obtain ⟨m2,b2,L2,hrun2,hgath2,hpot2⟩ := ih hgath1 hpis
    refine ⟨m2,b1 || b2,L2,by simp [Monitor.findProcesses,hrun1,hrun2],hgath2,?_⟩
    have hor : (b1 || b2).toNat ≤ b1.toNat + b2.toNat := by
      cases b1 <;> cases b2 <;> simp
    omega

private theorem sound_findByParent : Sound ps rest F m0 L0 findByParent := by
  intro m L pi g h hfind
  simp only [findByParent,bind_eq_bind,bind_eq_some_iff] at hfind
  obtain ⟨x,-,c,hc,fam,hfam,hg⟩ := hfind
  split at hg
  · simp at hg
  · rename_i hroot
    split at hg
    · simp at hg
    · obtain rfl : c.family = g := some.inj hg
      apply h.shape.mem_ids hc
      intro he
      have helse := h.shape.tree.elseRoot
      rw [← he,hfam] at helse
      exact hroot (some.inj helse)

theorem Gathered.findByParents (h : Gathered ps rest F m0 L0 m L)
    (hnd : (ps.map ProcInfo.pid).Nodup) (hsub : rest ⊆ ps) {n : Nat} (hn : potential F m rest < n) :
    ∃ m' L', Monitor.findByParents n m rest = some m' ∧ Gathered ps rest F m0 L0 m' L' := by
  induction n generalizing m L with
  | zero => simp at hn
  | succ n ih =>
    obtain ⟨m1,b,L1,hrun,hgath,hpot⟩ :=
      h.findProcesses findByParent sound_findByParent hnd hsub (List.Subset.refl rest)
    cases b with
    | false => exact ⟨m1,L1,by simp [Monitor.findByParents,hrun],hgath⟩
    | true =>
      simp only [Bool.toNat_true] at hpot
      obtain ⟨m2,L2,hrun2,hgath2⟩ := ih hgath (by omega)
      exact ⟨m2,L2,by simp [Monitor.findByParents,hrun,hrun2],hgath2⟩

theorem Gathered.addEverybodyElse (h : Gathered ps rest F m0 L0 m L)
    (hnd : (ps.map ProcInfo.pid).Nodup) (hpis : pis ⊆ ps) :
    ∃ m' L', m.addEverybodyElse pis = some m' ∧ Gathered ps rest F m0 L0 m' L' ∧
      (∀ pid, m.memberTable pid ≠ none → m'.memberTable pid ≠ none) ∧
      ∀ pi ∈ pis, m'.memberTable pi.pid ≠ none := by
  induction pis generalizing m L with
  | nil => exact ⟨m,L,rfl,h,fun _ hp => hp,by simp⟩
  | cons pi pis ih =>
    obtain ⟨hpi,hpis⟩ := List.cons_subset.mp hpis
    cases ht : m.memberTable pi.pid with
    | some x =>
      obtain ⟨m',L',hrun,hgath,hkeep,hall⟩ := ih h hpis
      refine ⟨m',L',by simp [Monitor.addEverybodyElse,ht,hrun],hgath,hkeep,fun pi' hpi' => ?_⟩
      rcases List.mem_cons.mp hpi' with rfl | hin
      · exact hkeep _ (by simp [ht])
      · exact hall pi' hin
    | none =>
      have hsome : (m.families m.everybodyElse).isSome = true :=
        (h.shape.tree.families _).mpr (.inr rfl)
      obtain ⟨m',L',hrun,hgath,hkeep,hall⟩ := ih (h.added hnd hpi ht hsome) hpis
      refine ⟨m',L',by simp [Monitor.addEverybodyElse,ht,addMember,hrun],hgath,?_,?_⟩
      · intro pid hp
        apply hkeep
        by_cases hpp : pid = pi.pid
        · simp [Monitor.added,hpp]
        · simpa [Monitor.added,hpp] using hp
      · intro pi' hpi'
        rcases List.mem_cons.mp hpi' with rfl | hin
        · exact hkeep _ (by simp [Monitor.added])
        · exact hall pi' hin

end Condor.Procd.Monitor
