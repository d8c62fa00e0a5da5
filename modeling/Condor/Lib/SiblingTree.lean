import Mathlib.Data.List.Pairwise
import Condor.Lib.Forest

/-!
# Trees with sibling pointers

A node knows its parent, one of its children and its next sibling. The pointers of such a tree
spell out a forest.
-/

namespace Condor.Lib

open List Function Option

structure TreeLinks (ι : Type) where
  parent : ι → Option ι
  child : ι → Option ι
  sibling : ι → Option ι

namespace TreeLinks

variable {ι : Type}

/-- The pointer `p` leads to the forest, all of whose roots have the parent `q`. -/
def Holds (l : TreeLinks ι) : Option ι → Option ι → Forest ι → Prop
  | _, p, .nil => p = none
  | q, p, .cons x c s =>
    p = some x ∧ l.parent x = q ∧ l.Holds (some x) (l.child x) c ∧ l.Holds q (l.sibling x) s

variable {l l' : TreeLinks ι} {p q : Option ι} {f : Forest ι} {x y z : ι}

theorem Holds.congr (h : l.Holds q p f) (hl : ∀ z ∈ f.ids, l'.parent z = l.parent z ∧
    l'.child z = l.child z ∧ l'.sibling z = l.sibling z) : l'.Holds q p f := by
  induction f generalizing p q with
  | nil => exact h
  | cons x c s ihc ihs =>
    obtain ⟨hp,hq,hc,hs⟩ := h
    obtain ⟨h1,h2,h3⟩ := hl x (by simp)
    refine ⟨hp,h1.trans hq,?_,?_⟩
    · rw [h2]
      exact ihc hc fun z hz => hl z (by simp [hz])
    · rw [h3]
      exact ihs hs fun z hz => hl z (by simp [hz])

theorem Holds.head_eq (h : l.Holds q p f) : p = f.ids.head? := by
  cases f with
  | nil => exact h
  | cons x c s => exact h.1

theorem Holds.targets (h : l.Holds q p f) :
    (p.toList ++ f.ids.flatMap fun z => (l.child z).toList ++ (l.sibling z).toList).Perm f.ids := by
  induction f generalizing p q with
  | nil =>
    obtain rfl : p = none := h
    simp
  | cons x c s ihc ihs =>
    obtain ⟨rfl,-,hc,hs⟩ := h
    simp only [Forest.ids_cons,toList_some,singleton_append,flatMap_cons,
      flatMap_append]
    refine List.Perm.cons x ?_
    refine List.Perm.trans ?_ (List.Perm.append (ihc hc) (ihs hs))
    simp only [append_assoc]
    refine List.Perm.append_left _ ?_
    simp only [← append_assoc]
    exact List.Perm.append_right _ perm_append_comm

theorem Holds.child_mem (h : l.Holds q p f) (hz : z ∈ f.ids) (hc : l.child z = some x) :
    x ∈ f.ids := by
  refine h.targets.subset ?_
  simp only [mem_append,mem_flatMap]
  exact .inr ⟨z,hz,.inl (by simp [hc])⟩

theorem Holds.sibling_mem (h : l.Holds q p f) (hz : z ∈ f.ids) (hc : l.sibling z = some x) :
    x ∈ f.ids := by
  refine h.targets.subset ?_
  simp only [mem_append,mem_flatMap]
  exact .inr ⟨z,hz,.inr (by simp [hc])⟩

inductive Slot (ι : Type) where
  | child (x : ι)
  | sibling (x : ι)
  deriving DecidableEq

def Slot.holder : Slot ι → ι
  | child x => x
  | sibling x => x

def get (l : TreeLinks ι) : Slot ι → Option ι
  | .child x => l.child x
  | .sibling x => l.sibling x

theorem Holds.slot_unique (h : l.Holds q p f) (hnd : f.ids.Nodup) {a b : Slot ι}
    (ha : a.holder ∈ f.ids) (hb : b.holder ∈ f.ids) (hax : l.get a = some x)
    (hbx : l.get b = some x) : a = b := by
  have hfl : (f.ids.flatMap fun z => (l.child z).toList ++ (l.sibling z).toList).Nodup :=
    (List.nodup_append.mp (h.targets.nodup_iff.mpr hnd)).2.1
  obtain ⟨hin,hpair⟩ := List.nodup_flatMap.mp hfl
  have hmem : ∀ c : Slot ι, l.get c = some x →
      x ∈ (l.child c.holder).toList ++ (l.sibling c.holder).toList := by
    intro c hc
    cases c with
    | child z => simp [Slot.holder,show l.child z = some x from hc]
    | sibling z => simp [Slot.holder,show l.sibling z = some x from hc]
  have hholder : a.holder = b.holder := by
    by_contra hne
    have hsymm : Std.Symm (Function.onFun List.Disjoint
        fun z => (l.child z).toList ++ (l.sibling z).toList) := ⟨fun _ _ hd _ h1 h2 => hd h2 h1⟩
    exact hpair.forall ha hb hne (hmem a hax) (hmem b hbx)
  cases a with
  | child z =>
    cases b with
    | child w => exact congrArg Slot.child hholder
    | sibling w =>
      obtain rfl : z = w := hholder
      have hz := hin z ha
      rw [show l.child z = some x from hax,show l.sibling z = some x from hbx] at hz
      simp at hz
  | sibling z =>
    cases b with
    | sibling w => exact congrArg Slot.sibling hholder
    | child w =>
      obtain rfl : z = w := hholder
      have hz := hin z ha
      rw [show l.sibling z = some x from hax,show l.child z = some x from hbx] at hz
      simp at hz

def visit {σ : Type} (l : TreeLinks ι) (g : σ → ι → σ) : Nat → σ → Option ι → σ
  | 0, s, _ => s
  | _ + 1, s, none => s
  | n + 1, s, some x => l.visit g n (l.visit g n (g s x) (l.child x)) (l.sibling x)

variable {n : Nat}

theorem Holds.visit_eq {σ : Type} (g : σ → ι → σ) (h : l.Holds q p f)
    (hn : f.ids.length < n) (s : σ) : l.visit g n s p = f.ids.foldl g s := by
  induction f generalizing p q n s with
  | nil =>
    obtain rfl : p = none := h
    cases n with
    | zero | succ => rfl
  | cons x c t ihc iht =>
    obtain ⟨rfl,-,hc,ht⟩ := h
    cases n with
    | zero => simp at hn
    | succ n =>
      simp only [Forest.ids_cons,length_cons,length_append] at hn
      rw [visit,ihc hc (by omega),iht ht (by omega)]
      simp

theorem Holds.roots_append {as bs : List ι} (h : l.Holds q p f)
    (hr : f.roots = as ++ x :: bs) :
    l.parent x = q ∧ (as = [] → p = some x) ∧
      (∀ w, as.getLast? = some w → l.sibling w = some x) := by
  induction f generalizing p as with
  | nil => simp [Forest.roots] at hr
  | cons y c s _ ihs =>
    obtain ⟨hp,hq,-,hs⟩ := h
    cases as with
    | nil =>
      simp only [Forest.roots,nil_append,List.cons.injEq] at hr
      obtain rfl : y = x := hr.1
      exact ⟨hq,fun _ => hp,by simp⟩
    | cons a as =>
      simp only [Forest.roots,cons_append,List.cons.injEq] at hr
      obtain ⟨rfl,hr⟩ := hr
      obtain ⟨hpar,hnil,hlast⟩ := ihs hs hr
      refine ⟨hpar,by simp,fun w hw => ?_⟩
      cases as with
      | nil =>
        obtain rfl : y = w := by simpa using hw
        exact hnil rfl
      | cons b as =>
        rw [getLast?_cons_cons] at hw
        exact hlast w hw

theorem Holds.parent_of_mem_roots (h : l.Holds q p f)
    (hx : x ∈ f.roots) : l.parent x = q := by
  obtain ⟨as,bs,hr⟩ := append_of_mem hx
  exact (h.roots_append hr).1

variable [DecidableEq ι]

theorem Holds.under (h : l.Holds q p f) (hx : x ∈ f.ids) :
    l.Holds (some x) (l.child x) (f.under x) := by
  induction f generalizing p q with
  | nil => simp at hx
  | cons y c s ihc ihs =>
    obtain ⟨-,-,hc,hs⟩ := h
    unfold Forest.under
    split
    · rename_i hyx
      subst hyx
      exact hc
    · rename_i hyx
      split
      · rename_i hxc
        exact ihc hc hxc
      · rename_i hxc
        simp only [Forest.ids_cons,mem_cons,mem_append] at hx
        exact ihs hs ((hx.resolve_left (Ne.symm hyx)).resolve_left hxc)

theorem Holds.parent_cases (h : l.Holds q p f) (hnd : f.ids.Nodup) (hx : x ∈ f.ids) :
    (x ∈ f.roots ∧ l.parent x = q) ∨
      ∃ y ∈ f.ids, l.parent x = some y ∧ x ∈ (f.under y).roots := by
  induction f generalizing p q with
  | nil => simp at hx
  | cons y c s ihc ihs =>
    obtain ⟨hy,hcs⟩ := List.nodup_cons.mp hnd
    obtain ⟨hndc,hnds,hdis⟩ := List.nodup_append.mp hcs
    obtain ⟨-,hq,hc,hs⟩ := h
    simp only [Forest.ids_cons,mem_cons,mem_append] at hx
    rcases hx with rfl | hx | hx
    · exact .inl ⟨by simp [Forest.roots],hq⟩
    · refine .inr ?_
      rcases ihc hc hndc hx with ⟨hr,hpar⟩ | ⟨z,hz,hpar,hr⟩
      · exact ⟨y,by simp,hpar,by simpa [Forest.under] using hr⟩
      · have hyz : y ≠ z := fun h => hy (by simp [h,hz])
        exact ⟨z,by simp [hz],hpar,by simpa [Forest.under,hyz,hz] using hr⟩
    · rcases ihs hs hnds hx with ⟨hr,hpar⟩ | ⟨z,hz,hpar,hr⟩
      · exact .inl ⟨by simp [Forest.roots,hr],hpar⟩
      · have hyz : y ≠ z := fun h => hy (by simp [h,hz])
        have hzc : z ∉ c.ids := fun h => hdis z h z hz rfl
        exact .inr ⟨z,by simp [hz],hpar,by simpa [Forest.under,hyz,hzc] using hr⟩

def addChild (l : TreeLinks ι) (p x : ι) : TreeLinks ι where
  parent := update l.parent x (some p)
  child := update (update l.child x none) p (some x)
  sibling := update l.sibling x (l.child p)

theorem Holds.addChild {r : ι} (h : l.Holds q p f) (hnd : f.ids.Nodup) (hr : r ∈ f.ids)
    (hx : x ∉ f.ids) : (l.addChild r x).Holds q p (f.insert r x) := by
  have hframe : ∀ g : Forest ι, g.ids ⊆ f.ids → r ∉ g.ids → ∀ {p q}, l.Holds q p g →
      (l.addChild r x).Holds q p g := by
    intro g hg hrg p q hh
    refine hh.congr fun z hz => ?_
    have hzx : z ≠ x := fun h => hx (h ▸ hg hz)
    have hzr : z ≠ r := fun h => hrg (h ▸ hz)
    simp [TreeLinks.addChild,hzx,hzr]
  have hrx : r ≠ x := fun h => hx (h ▸ hr)
  suffices H : ∀ g : Forest ι, g.ids ⊆ f.ids → g.ids.Nodup → r ∈ g.ids → ∀ {p q}, l.Holds q p g →
      (l.addChild r x).Holds q p (g.insert r x) from H f (List.Subset.refl _) hnd hr h
  intro g
  induction g with
  | nil => intro _ _ hr; simp at hr
  | cons y c s ihc ihs =>
    intro hsub hnd hr p q hh
    obtain ⟨hp,hq,hc,hs⟩ := hh
    obtain ⟨hy,hcs⟩ := List.nodup_cons.mp hnd
    obtain ⟨hndc,hnds,hdis⟩ := List.nodup_append.mp hcs
    have hcf : c.ids ⊆ f.ids := fun z hz => hsub (by simp [hz])
    have hsf : s.ids ⊆ f.ids := fun z hz => hsub (by simp [hz])
    have hyx : y ≠ x := fun h => hx (h ▸ hsub (by simp))
    by_cases hyr : y = r
    · subst hyr
      have hyc : y ∉ c.ids := fun h => hy (by simp [h])
      have hys : y ∉ s.ids := fun h => hy (by simp [h])
      rw [Forest.insert,if_pos rfl]
      refine ⟨hp,?_,⟨?_,?_,?_,?_⟩,?_⟩
      · simpa [TreeLinks.addChild,update_apply,hyx] using hq
      · simp [TreeLinks.addChild]
      · simp [TreeLinks.addChild]
      · simp [TreeLinks.addChild,Ne.symm hyx,Holds]
      · simpa [TreeLinks.addChild] using hframe c hcf hyc hc
      · simpa [TreeLinks.addChild,update_apply,hyx] using hframe s hsf hys hs
    · have hpar : (l.addChild r x).parent y = q := by
        simpa [TreeLinks.addChild,update_apply,hyx] using hq
      have hchild : (l.addChild r x).child y = l.child y := by
        simp [TreeLinks.addChild,hyx,hyr]
      have hsib : (l.addChild r x).sibling y = l.sibling y := by
        simp [TreeLinks.addChild,hyx]
      simp only [Forest.ids_cons,mem_cons,mem_append] at hr
      rw [Forest.insert,if_neg hyr]
      refine ⟨hp,hpar,?_,?_⟩
      · rw [hchild]
        by_cases hrc : r ∈ c.ids
        · exact ihc hcf hndc hrc hc
        · rw [Forest.insert_of_not_mem hrc]
          exact hframe c hcf hrc hc
      · rw [hsib]
        by_cases hrs : r ∈ s.ids
        · exact ihs hsf hnds hrs hs
        · rw [Forest.insert_of_not_mem hrs]
          exact hframe s hsf hrs hs

def set (l : TreeLinks ι) (a : Slot ι) (v : Option ι) : TreeLinks ι :=
  match a with
  | .child x => { l with child := update l.child x v }
  | .sibling x => { l with sibling := update l.sibling x v }

def reparent (q : Option ι) : Nat → TreeLinks ι → ι → TreeLinks ι × ι
  | 0, l, x => (l,x)
  | n + 1, l, x =>
    let l := { l with parent := update l.parent x q }
    match l.sibling x with
    | none => (l,x)
    | some y => reparent q n l y

def findSlot (l : TreeLinks ι) (x : ι) : Nat → Slot ι → Option (Slot ι)
  | 0, _ => none
  | n + 1, a =>
    match l.get a with
    | none => none
    | some y => if y = x then some a else l.findSlot x n (.sibling y)

def adopt (n : Nat) (l : TreeLinks ι) (p x : ι) : TreeLinks ι :=
  match l.child x with
  | none => l
  | some c =>
    let (l,last) := reparent (some p) n l c
    let l := { l with sibling := update l.sibling last (l.sibling x) }
    { l with sibling := update l.sibling x (some c) }

def sever (l : TreeLinks ι) (x : ι) : TreeLinks ι where
  parent := update l.parent x none
  child := update l.child x none
  sibling := update l.sibling x none

def remove (n : Nat) (l : TreeLinks ι) (x : ι) : Option (TreeLinks ι) :=
  match l.parent x with
  | none => none
  | some p =>
    let l := l.adopt n p x
    match l.findSlot x n (.child p) with
    | none => none
    | some a => some ((l.set a (l.sibling x)).sever x)

/-- What taking out the node `x`, with the forest `c` below it, does to the other nodes. -/
structure Removed (l l' : TreeLinks ι) (x : ι) (c : Forest ι) (zs : List ι) : Prop where
  parent : ∀ z ∈ zs, z ≠ x → l'.parent z = if z ∈ c.roots then l.parent x else l.parent z
  child : ∀ z ∈ zs, z ≠ x → l'.child z =
    if l.child z = some x then (l.child x).or (l.sibling x) else l.child z
  sibling : ∀ z ∈ zs, z ≠ x → l'.sibling z =
    if l.sibling z = some x then (l.child x).or (l.sibling x)
    else if c.roots.getLast? = some z then l.sibling x else l.sibling z

theorem Holds.reparent_eq {r : Option ι} {c s : Forest ι} (h : l.Holds q p (.cons x c s))
    (hnd : (x :: s.ids).Nodup) (hn : s.roots.length < n) :
    reparent r n l x = ({ l with parent := fun z => if z ∈ x :: s.roots then r else l.parent z },
      (x :: s.roots).getLast (cons_ne_nil x s.roots)) := by
  induction s generalizing l x p n c with
  | nil =>
    have hsib : l.sibling x = none := h.2.2.2
    cases n with
    | zero => simp at hn
    | succ n =>
      simp only [reparent,hsib,Forest.roots,mem_singleton,getLast_singleton]
      congr 2
      funext z
      simp [update_apply]
  | cons y d s _ ih =>
    obtain ⟨hxs,hnds⟩ := List.nodup_cons.mp hnd
    obtain ⟨-,hq,hc,hs⟩ := h
    have hsib : l.sibling x = some y := hs.1
    cases n with
    | zero => simp at hn
    | succ n =>
      have hs' : TreeLinks.Holds { l with parent := update l.parent x r } q (some y)
          (.cons y d s) := by
        rw [← hsib]
        refine hs.congr fun z hz => ?_
        have hzx : z ≠ x := fun h => hxs (h ▸ hz)
        simp [hzx]
      have hndy : (y :: s.ids).Nodup := by
        refine hnds.sublist ?_
        simp
      simp only [reparent,hsib]
      rw [ih hs' hndy (by simpa [Forest.roots] using hn)]
      simp only [Forest.roots,Prod.mk.injEq]
      refine ⟨?_,by simp⟩
      congr 1
      funext z
      by_cases hzx : z = x
      · simp [hzx]
      · simp [hzx]

theorem Holds.findSlot_eq (l' : TreeLinks ι) {as bs : List ι} {a : Slot ι}
    (h : l.Holds q p f)
    (hr : f.roots = as ++ x :: bs) (hx : x ∉ as) (ha : l'.get a = p)
    (hl : ∀ w ∈ as, l'.sibling w = l.sibling w) (hn : as.length < n) :
    ∃ b, l'.findSlot x n a = some b ∧ l'.get b = some x ∧ (b = a ∨ ∃ w ∈ as, b = .sibling w) := by
  induction f generalizing p as n a with
  | nil => simp [Forest.roots] at hr
  | cons y c s _ ihs =>
    obtain ⟨rfl,-,-,hs⟩ := h
    cases n with
    | zero => simp at hn
    | succ n =>
      cases as with
      | nil =>
        simp only [Forest.roots,nil_append,List.cons.injEq] at hr
        obtain rfl : y = x := hr.1
        exact ⟨a,by simp [findSlot,ha],ha,.inl rfl⟩
      | cons b as =>
        simp only [Forest.roots,cons_append,List.cons.injEq] at hr
        obtain ⟨rfl,hr⟩ := hr
        simp only [mem_cons,not_or] at hx
        have hsib : l'.get (.sibling y) = l.sibling y := hl y mem_cons_self
        obtain ⟨b,hb,hget,hbs⟩ := ihs hs hr hx.2 hsib
          (fun w hw => hl w (mem_cons_of_mem y hw)) (by simpa using hn)
        refine ⟨b,by simpa [findSlot,ha,Ne.symm hx.1] using hb,hget,.inr ?_⟩
        rcases hbs with rfl | ⟨w,hw,rfl⟩
        · exact ⟨y,mem_cons_self,rfl⟩
        · exact ⟨w,mem_cons_of_mem y hw,rfl⟩

theorem Holds.adopt_spec {r : ι} {c : Forest ι} (hc : l.Holds (some x) (l.child x) c)
    (hnd : (x :: c.ids).Nodup) (hn : c.roots.length < n + 1) :
    (l.adopt n r x).parent = (fun z => if z ∈ c.roots then some r else l.parent z) ∧
      (l.adopt n r x).child = l.child ∧
      (l.adopt n r x).sibling x = (l.child x).or (l.sibling x) ∧
      ∀ z, z ≠ x → (l.adopt n r x).sibling z =
        if c.roots.getLast? = some z then l.sibling x else l.sibling z := by
  cases c with
  | nil =>
    have hnone : l.child x = none := hc
    simp [adopt,hnone,Forest.roots]
  | cons y d s =>
    obtain ⟨hxc,hndc⟩ := List.nodup_cons.mp hnd
    have hchild : l.child x = some y := hc.1
    have hnds : (y :: s.ids).Nodup := hndc.sublist (by simp)
    have hlast : (y :: s.roots).getLast (cons_ne_nil y s.roots) ≠ x := by
      intro h
      apply hxc
      apply Forest.mem_ids_of_mem_roots
      rw [← h]
      exact getLast_mem _
    have hadopt : l.adopt n r x =
        { parent := fun z => if z ∈ y :: s.roots then some r else l.parent z
          child := l.child
          sibling := update (update l.sibling
            ((y :: s.roots).getLast (cons_ne_nil y s.roots)) (l.sibling x)) x (some y) } := by
      simp only [adopt,hchild]
      rw [hchild] at hc
      rw [hc.reparent_eq hnds (by simpa [Forest.roots] using hn)]
    rw [hadopt]
    refine ⟨rfl,rfl,by simp [hchild],fun z hz => ?_⟩
    simp only [Forest.roots,getLast?_eq_some_getLast (cons_ne_nil y s.roots),
      Option.some.injEq]
    rw [update_apply,if_neg hz,update_apply]
    exact if_congr eq_comm rfl rfl

theorem Holds.remove_spec {r : ι} (h : l.Holds q p f) (hnd : f.ids.Nodup) (hx : x ∈ f.ids)
    (hr : r ∈ f.ids) (hpar : l.parent x = some r) (hroot : x ∈ (f.under r).roots)
    (hn : f.ids.length < n) :
    ∃ l', remove n l x = some l' ∧ Removed l l' x (f.under x) f.ids := by
  have hxr : x ≠ r := by
    rintro rfl
    exact Forest.not_mem_under hnd (Forest.mem_ids_of_mem_roots hroot)
  have hlen : ∀ y, (f.under y).roots.length < n := by
    intro y
    have h1 := ((f.under y).roots_sublist.trans (f.under_sublist y)).length_le
    omega
  have hc := h.under hx
  have hndx : (x :: (f.under x).ids).Nodup :=
    List.nodup_cons.mpr ⟨Forest.not_mem_under hnd,hnd.sublist (f.under_sublist x)⟩
  obtain ⟨hap,hac,hax,has⟩ := hc.adopt_spec (r := r) hndx (Nat.lt_succ_of_lt (hlen x))
  -- the place of the node, before and after its children have moved
  obtain ⟨as,bs,hroots⟩ := append_of_mem hroot
  have hndr : (as ++ x :: bs).Nodup :=
    hroots ▸ hnd.sublist ((f.under r).roots_sublist.trans (f.under_sublist r))
  obtain ⟨-,-,hdis⟩ := List.nodup_append.mp hndr
  have hasx : x ∉ as := fun hxa => hdis x hxa x mem_cons_self rfl
  have hkept : ∀ w ∈ as, (l.adopt n r x).sibling w = l.sibling w := by
    intro w hw
    have hwx : w ≠ x := fun h => hasx (h ▸ hw)
    have hwr : l.parent w = some r :=
      (h.under hr).parent_of_mem_roots (by rw [hroots]; simp [hw])
    rw [has w hwx,if_neg]
    intro hwl
    have hwx' := hc.parent_of_mem_roots (mem_of_getLast? hwl)
    exact hxr (some.inj (hwx'.symm.trans hwr))
  have hlenas : as.length < n := by
    have := hlen r
    rw [hroots] at this
    simp at this
    omega
  obtain ⟨b,hb,hget,hbs⟩ := (h.under hr).findSlot_eq (l.adopt n r x) (n := n)
    (a := .child r) hroots hasx (by rw [get,hac]) hkept hlenas
  have hholder : b.holder ∈ f.ids := by
    rcases hbs with rfl | ⟨w,hw,rfl⟩
    · exact hr
    · refine (f.under_sublist r).subset (Forest.mem_ids_of_mem_roots ?_)
      rw [hroots]
      simp [Slot.holder,hw]
  have hgetl : l.get b = some x := by
    rcases hbs with rfl | ⟨w,hw,rfl⟩
    · rw [← hget,get,get,hac]
    · rw [← hget,get,get,hkept w hw]
  have hslot : ∀ a : Slot ι, a.holder ∈ f.ids → (b = a ↔ l.get a = some x) := fun a ha =>
    ⟨fun hba => hba ▸ hgetl,fun hga => h.slot_unique hnd hholder ha hgetl hga⟩
  refine ⟨((l.adopt n r x).set b ((l.adopt n r x).sibling x)).sever x,by simp only [remove,hpar,hb],
    ?_,?_,?_⟩
  · intro z _ hzx
    have hset : ∀ v, ((l.adopt n r x).set b v).parent = (l.adopt n r x).parent := by
      intro v
      cases b <;> rfl
    simp only [sever,update_apply,if_neg hzx,hset,hap,hpar]
  · intro z hz hzx
    have hset : ((l.adopt n r x).set b ((l.adopt n r x).sibling x)).child z =
        if b = .child z then (l.adopt n r x).sibling x else l.child z := by
      cases b with
      | child w => simp [set,update_apply,hac,eq_comm]
      | sibling w => simp [set,hac]
    simp only [sever,update_apply,if_neg hzx]
    rw [hset,hax]
    exact if_congr (hslot (.child z) hz) rfl rfl
  · intro z hz hzx
    have hset : ((l.adopt n r x).set b ((l.adopt n r x).sibling x)).sibling z =
        if b = .sibling z then (l.adopt n r x).sibling x else (l.adopt n r x).sibling z := by
      cases b with
      | child w => simp [set]
      | sibling w => simp [set,update_apply,eq_comm]
    simp only [sever,update_apply,if_neg hzx]
    rw [hset,hax,has z hzx]
    exact if_congr (hslot (.sibling z) hz) rfl rfl

variable {c g : Forest ι} {zs : List ι}

theorem Removed.other (hr : Removed l l' x c zs) (h : l.Holds q p g)
    (hg : g.ids ⊆ zs) (hx : x ∉ g.ids) (hc : ∀ z ∈ c.roots, z ∉ g.ids) : l'.Holds q p g := by
  refine h.congr fun z hz => ?_
  have hzx : z ≠ x := fun h => hx (h ▸ hz)
  have hchild : l.child z ≠ some x := fun hzc => hx (h.child_mem hz hzc)
  have hsib : l.sibling z ≠ some x := fun hzs => hx (h.sibling_mem hz hzs)
  have hlast : c.roots.getLast? ≠ some z := fun hl => hc z (mem_of_getLast? hl) hz
  rw [hr.parent z (hg hz) hzx,hr.child z (hg hz) hzx,hr.sibling z (hg hz) hzx,
    if_neg fun hzc => hc z hzc hz,if_neg hchild,if_neg hsib,if_neg hlast]
  exact ⟨rfl,rfl,rfl⟩

theorem Removed.apart {pc : Option ι} (hr : Removed l l' x c zs)
    (hc : l.Holds (some x) pc c) (h : l.Holds q p g) (hg : g.ids ⊆ zs) (hnd : g.ids.Nodup)
    (hx : x ∉ g.ids) (hq : q ≠ some x) : l'.Holds q p g := by
  refine hr.other h hg hx fun z hz hzg => ?_
  have hzx := hc.parent_of_mem_roots hz
  rcases h.parent_cases hnd hzg with ⟨-,hp⟩ | ⟨y,hy,hp,-⟩
  · exact hq (hp.symm.trans hzx)
  · obtain rfl : y = x := some.inj (hp.symm.trans hzx)
    exact hx hy

theorem Removed.append {c g s : Forest ι} {ps : Option ι} (hr : Removed l l' x c zs)
    (hpar : l.parent x = q) (hps : ps = l.sibling x) (hs : l'.Holds q ps s)
    (h : l.Holds (some x) p g) (hg : g.ids ⊆ zs) (hnd : g.ids.Nodup) (hx : x ∉ g.ids)
    (hroots : ∀ z ∈ g.ids, (z ∈ c.roots ↔ z ∈ g.roots))
    (hlast : g.roots ≠ [] → c.roots.getLast? = g.roots.getLast?) :
    l'.Holds q (p.or ps) (g.append s) := by
  induction g generalizing p with
  | nil =>
    obtain rfl : p = none := h
    exact hs
  | cons y d t _ iht =>
    obtain ⟨rfl,-,hd,ht⟩ := h
    obtain ⟨hy,hdt⟩ := List.nodup_cons.mp hnd
    obtain ⟨hndd,hndt,hdis⟩ := List.nodup_append.mp hdt
    simp only [Forest.ids_cons,mem_cons,mem_append,not_or] at hx
    have hyx : y ≠ x := Ne.symm hx.1
    have hyz : y ∈ zs := hg (by simp)
    have hroot : y ∈ c.roots := (hroots y (by simp)).mpr (by simp [Forest.roots])
    refine ⟨rfl,?_,?_,?_⟩
    · rw [hr.parent y hyz hyx,if_pos hroot,hpar]
    · have hchild : l.child y ≠ some x := by
        intro hyc
        cases d with
        | nil => simp [hyc,Holds] at hd
        | cons w e u =>
          obtain rfl : x = w := some.inj (hyc.symm.trans hd.1)
          simp at hx
      rw [hr.child y hyz hyx,if_neg hchild]
      refine hr.other hd (fun z hz => hg (by simp [hz])) hx.2.1 fun z hz hzd => ?_
      have hzr := (hroots z (by simp [hzd])).mp hz
      simp only [Forest.roots,mem_cons] at hzr
      rcases hzr with rfl | hzr
      · exact hy (by simp [hzd])
      · exact hdis z hzd z (Forest.mem_ids_of_mem_roots hzr) rfl
    · have hsib : l.sibling y ≠ some x := by
        intro hys
        cases t with
        | nil => simp [hys,Holds] at ht
        | cons w e u =>
          obtain rfl : x = w := some.inj (hys.symm.trans ht.1)
          simp at hx
      have hlast' := hlast (by simp [Forest.roots])
      rw [hr.sibling y hyz hyx,if_neg hsib,hlast']
      cases t with
      | nil =>
        have hnone : l.sibling y = none := ht
        simp only [Forest.roots,getLast?_singleton,if_true]
        rw [← hps]
        exact hs
      | cons w e u =>
        have hne : (y :: (Forest.cons w e u).roots).getLast? ≠ some y := by
          intro h
          rw [Forest.roots,getLast?_cons_cons] at h
          exact hy (by
            have := Forest.mem_ids_of_mem_roots (f := .cons w e u) (mem_of_getLast? h)
            exact mem_append_right _ this)
        have hsome : l.sibling y = some w := ht.1
        rw [show (Forest.cons y d (Forest.cons w e u)).roots = y ::
          (Forest.cons w e u).roots from rfl,
          if_neg hne]
        have hgoal := iht (p := l.sibling y) ht
          (fun z hz => hg (by simp at hz ⊢; tauto)) hndt hx.2.2
          ?_ ?_
        · rw [hsome] at hgoal ⊢
          exact hgoal
        · intro z hz
          rw [hroots z (by simp at hz ⊢; tauto)]
          have hzy : z ≠ y := fun h => hy (mem_append_right _ (h ▸ hz))
          simp [Forest.roots,hzy]
        · intro _
          rw [hlast']
          simp [Forest.roots]

theorem Removed.holds (hr : Removed l l' x c zs)
    (h : l.Holds q p g) (hg : g.ids ⊆ zs) (hnd : g.ids.Nodup) (hx : x ∈ g.ids)
    (hc : g.under x = c) :
    l'.Holds q (if p = some x then (l.child x).or (l.sibling x) else p) (g.erase x) := by
  induction g generalizing p q with
  | nil => simp at hx
  | cons y d t ihd iht =>
    obtain ⟨rfl,hq,hd,ht⟩ := h
    obtain ⟨hy,hdt⟩ := List.nodup_cons.mp hnd
    obtain ⟨hndd,hndt,hdis⟩ := List.nodup_append.mp hdt
    have hdz : d.ids ⊆ zs := fun z hz => hg (by simp [hz])
    have htz : t.ids ⊆ zs := fun z hz => hg (by simp [hz])
    have hcroots : ∀ z ∈ c.roots, z ∈ ((Forest.cons y d t).under x).ids := fun z hz =>
      Forest.mem_ids_of_mem_roots (hc ▸ hz)
    by_cases hyx : y = x
    · subst hyx
      obtain rfl : d = c := by simpa [Forest.under] using hc
      have hyd : y ∉ d.ids := fun h => hy (by simp [h])
      have hyt : y ∉ t.ids := fun h => hy (by simp [h])
      rw [if_pos rfl,Forest.erase,if_pos rfl]
      refine hr.append hq rfl ?_ hd hdz hndd hyd (fun z _ => Iff.rfl) fun _ => rfl
      exact hr.other ht htz hyt fun z hz hzt =>
        hdis z (Forest.mem_ids_of_mem_roots hz) z hzt rfl
    · have hne : (some y : Option ι) ≠ some x := by simpa using hyx
      have hyz : y ∈ zs := hg (by simp)
      rw [if_neg hne,Forest.erase,if_neg hyx]
      have hyc : y ∉ c.roots := by
        intro hyc
        have := hcroots y hyc
        simp only [Forest.under,if_neg hyx] at this
        split at this
        · exact hy (mem_append_left _ ((Forest.under_sublist x d).subset this))
        · exact hy (mem_append_right _ ((Forest.under_sublist x t).subset this))
      have hlast : c.roots.getLast? ≠ some y := fun h => hyc (mem_of_getLast? h)
      refine ⟨rfl,?_,?_,?_⟩
      · rw [hr.parent y hyz hyx,if_neg hyc]
        exact hq
      · rw [hr.child y hyz hyx]
        by_cases hxd : x ∈ d.ids
        · exact ihd hd hdz hndd hxd (by rw [← hc]; simp [Forest.under,hyx,hxd])
        · have hchild : l.child y ≠ some x := by
            intro h
            rw [hd.head_eq] at h
            exact hxd (mem_of_head? h)
          rw [if_neg hchild,Forest.erase_of_not_mem hxd]
          refine hr.other hd hdz hxd fun z hz hzd => ?_
          have := hcroots z hz
          simp only [Forest.under,if_neg hyx,if_neg hxd] at this
          exact hdis z hzd z ((Forest.under_sublist x t).subset this) rfl
      · rw [hr.sibling y hyz hyx,if_neg hlast]
        by_cases hxt : x ∈ t.ids
        · have hxd : x ∉ d.ids := fun h => hdis x h x hxt rfl
          exact iht ht htz hndt hxt (by rw [← hc]; simp [Forest.under,hyx,hxd])
        · have hsib : l.sibling y ≠ some x := by
            intro h
            rw [ht.head_eq] at h
            exact hxt (mem_of_head? h)
          rw [if_neg hsib,Forest.erase_of_not_mem hxt]
          refine hr.other ht htz hxt fun z hz hzt => ?_
          have := hcroots z hz
          simp only [Forest.ids_cons,mem_cons,mem_append] at hx
          have hxd : x ∈ d.ids := (hx.resolve_left (Ne.symm hyx)).resolve_right hxt
          simp only [Forest.under,if_neg hyx,if_pos hxd] at this
          exact hdis z ((Forest.under_sublist x d).subset this) z hzt rfl

end TreeLinks

end Condor.Lib
