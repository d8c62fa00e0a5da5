import Mathlib.Data.List.Perm.Subperm
import Condor.Procd.Monitor

/-!
# Members of families

Each family holds a doubly linked list of its members, each member knows its family, and the table
leads from a pid to the one member that has it. The operations on members keep this.
-/

namespace Condor.Procd.Monitor

open Condor.Lib List Function Option

structure MemberShape (m : Monitor) (L : Nat → List Nat) : Prop where
  chain : ∀ g, m.neighbours.Holds (m.memberList g) (L g)
  nodup : ∀ g, (L g).Nodup
  mem : ∀ g x, x ∈ L g ↔ ∃ c, m.members x = some c ∧ c.family = g
  table : ∀ pid x, m.memberTable pid = some x ↔ ∃ c, m.members x = some c ∧ c.procInfo.pid = pid
  fresh : ∀ x c, m.members x = some c → x < m.nextMember

structure SameTree (m m' : Monitor) : Prop where
  links : m'.links = m.links
  tree : m'.tree = m.tree
  everybodyElse : m'.everybodyElse = m.everybodyElse
  nextFamily : m'.nextFamily = m.nextFamily
  familyTable : m'.familyTable = m.familyTable
  pidTracker : m'.pidTracker = m.pidTracker
  loginTracker : m'.loginTracker = m.loginTracker
  environmentTracker : m'.environmentTracker = m.environmentTracker
  groupTracker : m'.groupTracker = m.groupTracker
  families : ∀ g, (m'.families g).map (fun f => (f.rootPid,f.rootBirthday,f.watcherPid)) =
    (m.families g).map fun f => (f.rootPid,f.rootBirthday,f.watcherPid)

variable {m m' m'' : Monitor} {L : Nat → List Nat}

theorem SameTree.rfl : SameTree m m :=
  ⟨Eq.refl _,Eq.refl _,Eq.refl _,Eq.refl _,Eq.refl _,Eq.refl _,Eq.refl _,Eq.refl _,Eq.refl _,
    fun _ => Eq.refl _⟩

theorem SameTree.trans (h : SameTree m m') (h' : SameTree m' m'') : SameTree m m'' where
  links := h'.links.trans h.links
  tree := h'.tree.trans h.tree
  everybodyElse := h'.everybodyElse.trans h.everybodyElse
  nextFamily := h'.nextFamily.trans h.nextFamily
  familyTable := h'.familyTable.trans h.familyTable
  pidTracker := h'.pidTracker.trans h.pidTracker
  loginTracker := h'.loginTracker.trans h.loginTracker
  environmentTracker := h'.environmentTracker.trans h.environmentTracker
  groupTracker := h'.groupTracker.trans h.groupTracker
  families g := (h'.families g).trans (h.families g)

theorem MemberShape.disjoint (h : MemberShape m L) {g g' x : Nat} (hx : x ∈ L g) (hx' : x ∈ L g') :
    g = g' := by
  obtain ⟨c,hc,rfl⟩ := (h.mem g x).mp hx
  obtain ⟨c',hc',rfl⟩ := (h.mem g' x).mp hx'
  obtain rfl : c = c' := some.inj (hc.symm.trans hc')
  rfl

theorem MemberShape.length_le (h : MemberShape m L) (g : Nat) : (L g).length ≤ m.nextMember := by
  have hsub : L g ⊆ List.range m.nextMember := by
    intro x hx
    obtain ⟨c,hc,-⟩ := (h.mem g x).mp hx
    exact List.mem_range.mpr (h.fresh x c hc)
  simpa using (subperm_of_subset (h.nodup g) hsub).length_le

variable {c : ProcFamilyMember}

theorem MemberShape.lookup (h : MemberShape m L) {x : Nat}
    (hc : m.members x = some c) : m.memberTable c.procInfo.pid = some x :=
  (h.table _ _).mpr ⟨c,hc,rfl⟩

theorem MemberShape.pid_injective (h : MemberShape m L) {x y : Nat} {c d : ProcFamilyMember}
    (hc : m.members x = some c) (hd : m.members y = some d) (hp : c.procInfo.pid = d.procInfo.pid) :
    x = y := by
  have hx := h.lookup hc
  rw [hp,h.lookup hd] at hx
  exact (some.inj hx).symm

theorem added_sameTree (m : Monitor) (g : Nat) (pi : ProcInfo) : SameTree m (m.added g pi) :=
  ⟨rfl,rfl,rfl,rfl,rfl,rfl,rfl,rfl,rfl,fun _ => rfl⟩

theorem MemberShape.added (h : MemberShape m L) {g : Nat} {pi : ProcInfo}
    (hpi : m.memberTable pi.pid = none) :
    MemberShape (m.added g pi) (update L g (m.nextMember :: L g)) := by
  have hnew : m.members m.nextMember = none := by
    cases hc : m.members m.nextMember with
    | none => rfl
    | some c => exact absurd (h.fresh _ c hc) (Nat.lt_irrefl _)
  have hnot : ∀ g', m.nextMember ∉ L g' := by
    intro g' hx
    obtain ⟨c,hc,-⟩ := (h.mem g' _).mp hx
    rw [hnew] at hc
    simp at hc
  have hhead : ∀ g', g' ≠ g → ∀ z ∈ L g', m.memberList g ≠ some z := by
    intro g' hg z hz hh
    rw [(h.chain g).head_eq] at hh
    exact hg (h.disjoint hz (mem_of_head? hh))
  constructor
  · intro g'
    by_cases hg : g' = g
    · subst hg
      simpa [Monitor.added] using (h.chain g').push (h.nodup g') (hnot g')
    · simpa [Monitor.added,hg] using (h.chain g').push_other (hnot g') (hhead g' hg)
  · intro g'
    by_cases hg : g' = g
    · subst hg
      simpa using ⟨hnot g',h.nodup g'⟩
    · simpa [hg] using h.nodup g'
  · intro g' x
    have hmem := h.mem g' x
    by_cases hg : g' = g
    · subst hg
      by_cases hx : x = m.nextMember
      · simp [Monitor.added,hx]
      · simpa [Monitor.added,hx] using hmem
    · by_cases hx : x = m.nextMember
      · subst hx
        simpa [Monitor.added,hg,Ne.symm hg] using hnot g'
      · simpa [Monitor.added,hx,hg] using hmem
  · intro pid x
    have htab := h.table pid x
    by_cases hp : pid = pi.pid
    · subst hp
      rw [hpi] at htab
      by_cases hx : x = m.nextMember
      · simp [Monitor.added,hx]
      · simpa [Monitor.added,hx,Ne.symm hx] using htab
    · by_cases hx : x = m.nextMember
      · subst hx
        rw [hnew] at htab
        simpa [Monitor.added,hp,Ne.symm hp] using htab
      · simpa [Monitor.added,hx,hp] using htab
  · intro x c hc
    by_cases hx : x = m.nextMember
    · simp [Monitor.added,hx]
    · have := h.fresh x c (by simpa [Monitor.added,hx] using hc)
      simp [Monitor.added]
      omega

theorem setMember_sameTree (m : Monitor) (x : Nat) (c : ProcFamilyMember) :
    SameTree m (m.setMember x c) :=
  ⟨rfl,rfl,rfl,rfl,rfl,rfl,rfl,rfl,rfl,fun _ => rfl⟩

theorem MemberShape.setMember (h : MemberShape m L) {x : Nat} {c d : ProcFamilyMember}
    (hc : m.members x = some c) (hf : d.family = c.family) (hp : d.procInfo.pid = c.procInfo.pid) :
    MemberShape (m.setMember x d) L := by
  constructor
  · exact h.chain
  · exact h.nodup
  · intro g y
    rw [h.mem g y]
    by_cases hy : y = x
    · subst hy
      simp [Monitor.setMember,hc,hf]
    · simp [Monitor.setMember,hy]
  · intro pid y
    have htab := h.table pid y
    by_cases hy : y = x
    · subst hy
      simpa [Monitor.setMember,hc,hp] using htab
    · simpa [Monitor.setMember,hy] using htab
  · intro y e he
    by_cases hy : y = x
    · subst hy
      exact h.fresh y c hc
    · exact h.fresh y e (by simpa [Monitor.setMember,hy] using he)

variable {as bs : List Nat}

private theorem MemberShape.not_around (h : MemberShape m L) {g g' x : Nat}
    (hL : L g = as ++ x :: bs) (hg : g' ≠ g) :
    (∀ z ∈ L g', as.getLast? ≠ some z) ∧ ∀ z ∈ L g', bs.head? ≠ some z := by
  refine ⟨fun z hz hh => hg (h.disjoint hz ?_),fun z hz hh => hg (h.disjoint hz ?_)⟩
  · rw [hL]
    exact mem_append_left _ (mem_of_getLast? hh)
  · rw [hL]
    exact mem_append_right _ (mem_cons_of_mem x (mem_of_head? hh))

variable {g x : Nat}

private theorem MemberShape.chain_unlinked (h : MemberShape m L) (hL : L g = as ++ x :: bs)
    (g' : Nat) :
    (m.unlinked g as.getLast? bs.head?).neighbours.Holds
      ((m.unlinked g as.getLast? bs.head?).memberList g') (update L g (as ++ bs) g') := by
  by_cases hg : g' = g
  · subst hg
    have hchain := h.chain g'
    have hnd := h.nodup g'
    rw [hL] at hchain hnd
    simpa [Monitor.unlinked] using hchain.join hnd
  · obtain ⟨hb,hc⟩ := h.not_around hL hg
    simpa [Monitor.unlinked,hg] using (h.chain g').join_other hb hc

private theorem MemberShape.nodup_unlinked (h : MemberShape m L)
    (hL : L g = as ++ x :: bs) (g' : Nat) : (update L g (as ++ bs) g').Nodup := by
  by_cases hg : g' = g
  · subst hg
    have hnd := h.nodup g'
    rw [hL] at hnd
    rw [update_self]
    exact hnd.sublist (List.Sublist.append (List.Sublist.refl as) (sublist_cons_self x bs))
  · simpa [hg] using h.nodup g'

theorem MemberShape.mem_unlinked (h : MemberShape m L) (hL : L g = as ++ x :: bs)
    (g' y : Nat) :
    y ∈ update L g (as ++ bs) g' ↔ y ≠ x ∧ y ∈ L g' := by
  have hnd := h.nodup g
  rw [hL,nodup_append] at hnd
  obtain ⟨-,hndx,hdis⟩ := hnd
  have hxb := (List.nodup_cons.mp hndx).1
  have hxa : x ∉ as := fun hx => hdis x hx x mem_cons_self rfl
  by_cases hg : g' = g
  · subst hg
    rw [update_self,hL]
    simp only [mem_append,mem_cons]
    constructor
    · intro hy
      refine ⟨?_,by tauto⟩
      rintro rfl
      tauto
    · intro ⟨hyx,hy⟩
      tauto
  · rw [update_of_ne hg]
    refine ⟨fun hy => ⟨?_,hy⟩,fun hy => hy.2⟩
    rintro rfl
    exact hg (h.disjoint hy (by rw [hL]; simp))

theorem buried_sameTree {fam : ProcFamily} (hfam : m.families g = some fam) (b n : Option Nat) :
    SameTree m ((m.buried g fam x c).unlinked g b n) := by
  refine ⟨rfl,rfl,rfl,rfl,rfl,rfl,rfl,rfl,rfl,fun g' => ?_⟩
  by_cases hg : g' = g
  · simp [buried,unlinked,hg,hfam]
  · simp [buried,unlinked,hg]

theorem MemberShape.buried (h : MemberShape m L) (fam : ProcFamily) (hL : L g = as ++ x :: bs)
    (hc : m.members x = some c) :
    MemberShape ((m.buried g fam x c).unlinked g as.getLast? bs.head?)
      (update L g (as ++ bs)) := by
  constructor
  · exact h.chain_unlinked hL
  · exact h.nodup_unlinked hL
  · intro g' y
    rw [h.mem_unlinked hL,h.mem g' y]
    by_cases hy : y = x
    · simp [Monitor.buried,unlinked,hy]
    · simp [Monitor.buried,unlinked,hy]
  · intro pid y
    have htab := h.table pid y
    by_cases hp : pid = c.procInfo.pid
    · subst hp
      rw [h.lookup hc] at htab
      by_cases hy : y = x
      · simp [Monitor.buried,unlinked,hy]
      · simpa [Monitor.buried,unlinked,hy,Ne.symm hy] using htab
    · by_cases hy : y = x
      · subst hy
        rw [hc] at htab
        simpa [Monitor.buried,unlinked,hp,Ne.symm hp] using htab
      · simpa [Monitor.buried,unlinked,hp,hy] using htab
  · intro y d hd
    by_cases hy : y = x
    · simp [Monitor.buried,unlinked,hy] at hd
    · exact h.fresh y d (by simpa [Monitor.buried,unlinked,hy] using hd)

theorem relinked_sameTree (m : Monitor) (x : Nat) (c : ProcFamilyMember) (g g' : Nat)
    (b n : Option Nat) : SameTree m ((m.unlinked g b n).relinked x c g') :=
  ⟨rfl,rfl,rfl,rfl,rfl,rfl,rfl,rfl,rfl,fun _ => rfl⟩

theorem MemberShape.relinked (h : MemberShape m L) {x g' : Nat} (hc : m.members x = some c)
    (hL : L c.family = as ++ x :: bs)
    (hg' : g' ≠ c.family) :
    MemberShape ((m.unlinked c.family as.getLast? bs.head?).relinked x c g')
      (update (update L c.family (as ++ bs)) g' (x :: L g')) := by
  have hmem := h.mem_unlinked hL
  have hchain := h.chain_unlinked hL
  have hnd := h.nodup_unlinked hL
  have hsame : update L c.family (as ++ bs) g' = L g' := update_of_ne hg' _ _
  have hx : ∀ h', x ∉ update L c.family (as ++ bs) h' := fun h' hx =>
    ((hmem h' x).mp hx).1 rfl
  have hhead : ∀ h', h' ≠ g' → ∀ z ∈ update L c.family (as ++ bs) h',
      (m.unlinked c.family as.getLast? bs.head?).memberList g' ≠ some z := by
    intro h' hne z hz hh
    rw [(hchain g').head_eq,hsame] at hh
    exact hne (h.disjoint ((hmem h' z).mp hz).2 (mem_of_head? hh))
  constructor
  · intro h'
    by_cases hh : h' = g'
    · subst hh
      have hp := (hchain h').push (hnd h') (hx h')
      rw [hsame] at hp
      simpa [Monitor.relinked] using hp
    · have hp := (hchain h').push_other (hx h') (hhead h' hh)
      simpa [Monitor.relinked,hh] using hp
  · intro h'
    by_cases hh : h' = g'
    · subst hh
      have hxg := hx h'
      rw [hsame] at hxg
      simpa using ⟨hxg,h.nodup h'⟩
    · simpa [hh] using hnd h'
  · intro h' y
    by_cases hh : h' = g'
    · subst hh
      rw [update_self,mem_cons,h.mem h' y]
      by_cases hy : y = x
      · simp [Monitor.relinked,unlinked,hy]
      · simp [Monitor.relinked,unlinked,hy]
    · rw [update_of_ne hh,hmem h' y,h.mem h' y]
      by_cases hy : y = x
      · simp [Monitor.relinked,unlinked,hy,Ne.symm hh]
      · simp [Monitor.relinked,unlinked,hy]
  · intro pid y
    have htab := h.table pid y
    by_cases hy : y = x
    · subst hy
      rw [hc] at htab
      simpa [Monitor.relinked,unlinked] using htab
    · simpa [Monitor.relinked,unlinked,hy] using htab
  · intro y d hd
    by_cases hy : y = x
    · subst hy
      exact h.fresh y c hc
    · exact h.fresh y d (by simpa [Monitor.relinked,unlinked,hy] using hd)

private theorem repoint_eq {g n x : Nat} {xs : List Nat} {b : Option Nat}
    (hw : m.neighbours.Walk b (some x) (x :: xs) none)
    (hmem : ∀ z ∈ x :: xs, (m.members z).isSome = true) (hnd : (x :: xs).Nodup)
    (hn : xs.length < n) :
    repoint g n m x = some ({ m with
      members := fun z => if z ∈ x :: xs then (m.members z).map fun c => { c with family := g }
        else m.members z },(x :: xs).getLast (cons_ne_nil x xs)) := by
  induction xs generalizing m x b n with
  | nil =>
    obtain ⟨c,hc⟩ := Option.isSome_iff_exists.mp (hmem x mem_cons_self)
    have hnext : m.neighbours.next x = none := hw.2.2
    cases n with
    | zero => simp at hn
    | succ n =>
      simp only [repoint,hc,bind_eq_bind,bind_some,setMember,hnext]
      congr 3
      funext z
      by_cases hz : z = x
      · simp [hz,hc]
      · simp [hz]
  | cons y xs ih =>
    obtain ⟨c,hc⟩ := Option.isSome_iff_exists.mp (hmem x mem_cons_self)
    obtain ⟨hx,hnd⟩ := List.nodup_cons.mp hnd
    obtain ⟨-,-,hy⟩ := hw
    have hnext : m.neighbours.next x = some y := hy.1
    rw [hnext] at hy
    cases n with
    | zero => simp at hn
    | succ n =>
      have hmem' : ∀ z ∈ y :: xs, ((m.setMember x { c with family := g }).members z).isSome =
        true := by
        intro z hz
        have hzx : z ≠ x := fun h => hx (h ▸ hz)
        simpa [setMember,hzx] using hmem z (mem_cons_of_mem x hz)
      have hrest := ih (m := m.setMember x { c with family := g }) hy hmem' hnd (by simpa using hn)
      simp only [repoint,hc,bind_eq_bind,bind_some]
      rw [show (m.setMember x { c with family := g }).neighbours.next x = some y from hnext]
      simp only [hrest]
      congr 2
      · congr 1
        funext z
        by_cases hz : z = x
        · subst hz
          simp only [if_neg hx,mem_cons_self,if_true,setMember,update_self,hc,
            map_some]
        · simp only [setMember,update_of_ne hz,mem_cons,hz,false_or]

private theorem inherited_sameTree {p : Nat} {par : ProcFamily} (hp : m.families p = some par)
    (fam : ProcFamily) : SameTree m (m.inherited p par fam) := by
  refine ⟨rfl,rfl,rfl,rfl,rfl,rfl,rfl,rfl,rfl,fun g => ?_⟩
  by_cases hg : g = p
  · simp [inherited,hg,hp]
  · simp [inherited,hg]

def foldedLists (L : Nat → List Nat) (f p : Nat) : Nat → List Nat :=
  update (update L p (L f ++ L p)) f []

theorem mem_foldedLists {f p g x : Nat} (hne : f ≠ p) :
    x ∈ foldedLists L f p g ↔ g ≠ f ∧ (x ∈ L g ∨ (g = p ∧ x ∈ L f)) := by
  unfold foldedLists
  by_cases hg : g = f
  · simp [hg]
  · by_cases hgp : g = p
    · subst hgp
      simp [hg,or_comm]
    · simp [hg,hgp]

theorem MemberShape.foldIntoParent (h : MemberShape m L) {f p : Nat} {fam par : ProcFamily}
    (hf : m.families f = some fam) (hp : m.families p = some par) (hne : f ≠ p) :
    ∃ m', m.foldIntoParent f p = some m' ∧ SameTree m m' ∧ MemberShape m' (foldedLists L f p) ∧
      m'.families = (m.inherited p par fam).families ∧
      ∀ x, m'.members x =
        (m.members x).map fun c => if c.family = f then { c with family := p } else c := by
  have hchain := h.chain f
  have hsame := inherited_sameTree hp fam
  cases hL : L f with
  | nil =>
    rw [hL] at hchain
    have hhead : m.memberList f = none := hchain
    have hLs : foldedLists L f p = L := by
      funext g
      unfold foldedLists
      by_cases hg : g = f
      · simp [hg,hL]
      · by_cases hgp : g = p
        · subst hgp
          simp [hg,hL]
        · simp [hg,hgp]
    refine ⟨m.inherited p par fam,?_,hsame,?_,rfl,?_⟩
    · simp [Monitor.foldIntoParent,hf,hp,inherited,hhead]
    · rw [hLs]
      exact ⟨h.chain,h.nodup,h.mem,h.table,h.fresh⟩
    · intro x
      cases hc : m.members x with
      | none => simp [inherited,hc]
      | some c =>
        have hcf : c.family ≠ f := by
          intro hcf
          have := (h.mem f x).mpr ⟨c,hc,hcf⟩
          simp [hL] at this
        simp [inherited,hc,hcf]
  | cons x xs =>
    rw [hL] at hchain
    have hhead : m.memberList f = some x := hchain.1
    have hnd := h.nodup f
    rw [hL] at hnd
    have hmem : ∀ z ∈ x :: xs, ((m.inherited p par fam).members z).isSome = true := by
      intro z hz
      obtain ⟨c,hc,-⟩ := (h.mem f z).mp (hL ▸ hz)
      simp [inherited,hc]
    have hlen := h.length_le f
    rw [hL] at hlen
    have hwalk : (m.inherited p par fam).neighbours.Walk none (some x) (x :: xs) none := by
      rw [← hhead]
      exact hchain
    have hrep := repoint_eq (g := p) (n := m.nextMember + 1) hwalk hmem hnd (by simp at hlen; omega)
    -- the members, as the invariant sees them
    have hmembers : (fun z => if z ∈ x :: xs then ((m.inherited p par fam).members z).map
          fun c => { c with family := p } else (m.inherited p par fam).members z) =
        fun z => (m.members z).map fun c => if c.family = f then { c with family := p } else c := by
      funext z
      cases hc : m.members z with
      | none => simp [inherited,hc]
      | some c =>
        have hz : z ∈ x :: xs ↔ c.family = f := by
          rw [← hL,h.mem f z,hc]
          simp
        by_cases hcf : c.family = f
        · simp only [inherited,hc,if_pos (hz.mpr hcf),map_some,if_pos hcf]
        · simp only [inherited,hc,if_neg fun h => hcf (hz.mp h),map_some,if_neg hcf]
    rw [hmembers] at hrep
    generalize hw : (x :: xs).getLast (cons_ne_nil x xs) = w at hrep
    obtain ⟨ys,hys⟩ : ∃ ys, x :: xs = ys ++ [w] :=
      ⟨(x :: xs).dropLast,by rw [← hw,dropLast_append_getLast]⟩
    refine ⟨spliced { m.inherited p par fam with
      members := fun z => (m.members z).map fun c => if c.family = f then { c with family := p }
        else c }
      f p x w,?_,⟨rfl,rfl,rfl,rfl,rfl,rfl,rfl,rfl,rfl,hsame.families⟩,?_,rfl,fun z => rfl⟩
    · simp only [Monitor.foldIntoParent,hf,hp,bind_eq_bind,bind_some,
        show (m.inherited p par fam).memberList f = some x from hhead,
        show (m.inherited p par fam).nextMember = m.nextMember from rfl,hrep]
    · have hLf : L f = ys ++ [w] := hL.trans hys
      have hwf : w ∈ L f := by simp [hLf]
      have hndf : (ys ++ [w] ++ L p).Nodup := by
        rw [← hLf]
        exact List.nodup_append.mpr ⟨h.nodup f,h.nodup p,fun a ha b hb hab =>
          hne (h.disjoint ha (hab ▸ hb))⟩
      constructor
      · intro g
        by_cases hgf : g = f
        · simp [spliced,foldedLists,hgf,Neighbours.Holds,Neighbours.Walk]
        · by_cases hgp : g = p
          · subst hgp
            have hcf := h.chain f
            rw [hhead,hLf] at hcf
            simpa [spliced,inherited,foldedLists,hgf,hLf] using hcf.link (h.chain g) hndf
          · have hbw : ∀ z ∈ L g, some w ≠ some z := fun z hz hwz =>
              hgf (h.disjoint hz (some.inj hwz ▸ hwf))
            have hcz : ∀ z ∈ L g, m.memberList p ≠ some z := by
              intro z hz hh
              rw [(h.chain p).head_eq] at hh
              exact hgp (h.disjoint hz (mem_of_head? hh))
            simpa [spliced,inherited,foldedLists,hgf,hgp,Neighbours.link] using
              (h.chain g).join_other (h := none) hbw hcz
      · intro g
        by_cases hgf : g = f
        · simp [foldedLists,hgf]
        · by_cases hgp : g = p
          · subst hgp
            simpa [foldedLists,hgf,hLf] using hndf
          · simpa [foldedLists,hgf,hgp] using h.nodup g
      · intro g z
        rw [mem_foldedLists hne,h.mem g z,h.mem f z]
        cases hc : m.members z with
        | none => simp [spliced,hc]
        | some c =>
          by_cases hcf : c.family = f
          · simp [spliced,hc,hcf]
            grind
          · simp [spliced,hc,hcf]
            grind
      · intro pid z
        refine (h.table pid z).trans ?_
        cases hc : m.members z with
        | none => simp [spliced,hc]
        | some c =>
          by_cases hcf : c.family = f
          · simp [spliced,hc,hcf]
          · simp [spliced,hc,hcf]
      · intro z c hc
        obtain ⟨d,hd,-⟩ := Option.map_eq_some_iff.mp hc
        exact h.fresh z d hd

end Condor.Procd.Monitor
