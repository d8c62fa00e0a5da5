import Condor.DaemonCore.Timer

/-!
# The linked list of timers

The loops and the pointer updates of the timer manager, stated on the list of addresses that
`timer_list` leads to.
-/

namespace Condor.DaemonCore

open Condor.Lib List Option

variable {σ : Type}

def Timer.unlink (t : Timer σ) : Timer σ := { t with next := none }

def place (t : Timer σ) : List (Timer σ) → List (Timer σ)
  | [] => [t]
  | u :: us => if t.when < u.when then t :: u :: us else u :: place t us

def enqueue (t : Timer σ) : List (Timer σ) → List (Timer σ)
  | [] => [t]
  | u :: us =>
    if t.when < u.when then t :: u :: us
    else if t.when = timeTNever then u :: us ++ [t]
    else place t (u :: us)

theorem place_append {t : Timer σ} {pre post : List (Timer σ)}
    (hpre : ∀ u ∈ pre, u.when ≤ t.when)
    (hpost : ∀ u, post.head? = some u → t.when < u.when) :
    place t (pre ++ post) = pre ++ t :: post := by
  induction pre with
  | nil =>
    cases post with
    | nil => rfl
    | cons u post => exact if_pos (hpost u rfl)
  | cons u pre ih =>
    have hu : ¬ t.when < u.when := Int.not_lt.mpr (hpre u mem_cons_self)
    rw [cons_append,place,if_neg hu,ih fun v hv => hpre v (mem_cons_of_mem u hv)]
    rfl

namespace TimerManager

variable {m m' m'' : TimerManager σ} {l pre post : List Addr} {a p q : Addr} {t u : Timer σ}

def cell (m : TimerManager σ) (p : Addr) : Option (Timer σ) := (m.read p).map Timer.unlink

@[simp] theorem read_store (m : TimerManager σ) (p q : Addr) (t : Timer σ) :
    (m.store p t).read q = if q = p then some t else m.read q := by
  by_cases h : q = p
  · subst h
    simp [read,store]
  · simp [read,store,h]

theorem load_of_read (h : m.read p = some t) : m.load p = .ok t := by rw [load,h]

theorem read_of_cell (h : m.cell p = some u) : ∃ t, m.read p = some t ∧ t.unlink = u :=
  Option.map_eq_some_iff.mp h

theorem cell_of_read (h : m.read p = some t) : m.cell p = some t.unlink := by
  rw [cell,h,map_some]

/-- `l` is the list, and the tail pointer is its last element. -/
structure Linked (m : TimerManager σ) (l : List Addr) : Prop where
  chain : Segment m.read Timer.next m.timerList l none
  nodup : l.Nodup
  tail : m.listTail = l.getLast?

structure Relinked (m m' : TimerManager σ) : Prop where
  cells : ∀ p, m'.cell p = m.cell p
  timerIds : m'.timerIds = m.timerIds
  inTimeout : m'.inTimeout = m.inTimeout
  didReset : m'.didReset = m.didReset
  didCancel : m'.didCancel = m.didCancel

theorem Relinked.trans (h : Relinked m m') (h' : Relinked m' m'') : Relinked m m'' where
  cells p := (h'.cells p).trans (h.cells p)
  timerIds := h'.timerIds.trans h.timerIds
  inTimeout := h'.inTimeout.trans h.inTimeout
  didReset := h'.didReset.trans h.didReset
  didCancel := h'.didCancel.trans h.didCancel

theorem Relinked.read (h : Relinked m m') (hp : m.read p = some t) :
    ∃ t', m'.read p = some t' ∧ t'.unlink = t.unlink :=
  read_of_cell ((h.cells p).trans (cell_of_read hp))

theorem Linked.read (h : Linked m l) (ha : a ∈ l) : ∃ t, m.read a = some t := h.chain.live ha

theorem Linked.length_lt_fuel (h : Linked m l) : l.length < m.fuel := by
  have hsub : l ⊆ m.heap.keys := by
    intro p hp
    obtain ⟨t,ht⟩ := h.read hp
    rw [← AList.mem_keys,← AList.lookup_isSome]
    exact Option.isSome_iff_exists.mpr ⟨t,ht⟩
  have hle := (subperm_of_subset h.nodup hsub).length_le
  rw [AList.keys,List.keys,length_map] at hle
  exact Nat.lt_succ_of_le hle

private theorem walk_from (stop : Timer σ → Bool) (rest : List Addr) :
    ∀ (n : Nat) (p : Option Addr) (done : List Addr), rest.length < n →
      Segment m.read Timer.next p rest none →
      ∃ pre post, rest = pre ++ post ∧
        m.walk stop n p done.getLast? = .ok (post.head?,(done ++ pre).getLast?) ∧
        (∀ q ∈ pre, ∃ t, m.read q = some t ∧ stop t = false) ∧
        ∀ q, post.head? = some q → ∃ t, m.read q = some t ∧ stop t = true := by
  induction rest with
  | nil =>
    intro n p done hn hs
    obtain ⟨n,rfl⟩ : ∃ k, n = k + 1 := ⟨n - 1,by simp at hn; omega⟩
    obtain rfl : p = none := hs
    exact ⟨[],[],rfl,by simp [walk],by simp,by simp⟩
  | cons b rest ih =>
    intro n p done hn hs
    obtain ⟨n,rfl⟩ : ∃ k, n = k + 1 := ⟨n - 1,by simp at hn; omega⟩
    obtain ⟨rfl,c,hc,hs⟩ := hs
    by_cases hstop : stop c = true
    · refine ⟨[],b :: rest,rfl,?_,by simp,?_⟩
      · simp [walk,load_of_read hc,hstop,bind,Except.bind]
      · intro q hq
        obtain rfl : b = q := by simpa using hq
        exact ⟨c,hc,hstop⟩
    · obtain ⟨pre,post,hrest,hw,hpre,hpost⟩ :=
        ih n c.next (done ++ [b]) (by simp at hn; omega) hs
      refine ⟨b :: pre,post,by rw [hrest,cons_append],?_,?_,hpost⟩
      · simp only [walk,load_of_read hc,bind,Except.bind,hstop]
        rw [getLast?_concat,append_assoc] at hw
        exact hw
      · intro q hq
        rcases List.mem_cons.mp hq with rfl | hq
        · exact ⟨c,hc,by simpa using hstop⟩
        · exact hpre q hq

theorem Linked.walk (h : Linked m l) (stop : Timer σ → Bool) : ∃ pre post, l = pre ++ post ∧
    m.walk stop m.fuel m.timerList none = .ok (post.head?,pre.getLast?) ∧
    (∀ q ∈ pre, ∃ t, m.read q = some t ∧ stop t = false) ∧
    ∀ q, post.head? = some q → ∃ t, m.read q = some t ∧ stop t = true :=
  walk_from stop l m.fuel m.timerList [] h.length_lt_fuel h.chain

private theorem getLast?_remove (h : (pre ++ a :: post).Nodup) : (pre ++ post).getLast? =
    if (pre ++ a :: post).getLast? = some a then pre.getLast? else (pre ++ a :: post).getLast? := by
  rcases eq_nil_or_concat post with rfl | ⟨post,z,rfl⟩
  · simp
  · have hz : z ≠ a := by
      rintro rfl
      simp [nodup_append] at h
    have hlast : (pre ++ a :: (post ++ [z])).getLast? = some z := by
      rw [← cons_append,← append_assoc,getLast?_concat]
    rw [concat_eq_append,hlast,if_neg (by simpa using hz),← append_assoc,
      getLast?_concat]

theorem Linked.removeTimer (h : Linked m (pre ++ a :: post)) :
    ∃ m', m.removeTimer a pre.getLast? = .ok m' ∧ Linked m' (pre ++ post) ∧ Relinked m m' := by
  obtain ⟨t,ht⟩ := h.read (a := a) (by simp)
  have htail := getLast?_remove h.nodup
  rw [← h.tail] at htail
  have hnd : (pre ++ post).Nodup := h.nodup.sublist (by simp)
  rcases eq_nil_or_concat pre with rfl | ⟨pre,b,rfl⟩
  · obtain ⟨hp,c,hc,hs⟩ := h.chain
    obtain rfl : t = c := some.inj (ht.symm.trans hc)
    refine ⟨_,by simp [TimerManager.removeTimer,hp,load_of_read ht,bind,Except.bind]; rfl,?_,?_⟩
    · split
      · next heq =>
        rw [if_pos heq] at htail
        exact ⟨hs,hnd,htail.symm⟩
      · next heq =>
        rw [if_neg heq] at htail
        exact ⟨hs,hnd,htail.symm⟩
    · split <;> exact ⟨fun _ => rfl,rfl,rfl,rfl,rfl⟩
  · simp only [concat_eq_append,append_assoc,singleton_append] at *
    obtain ⟨c,hc⟩ := h.read (a := b) (by simp)
    have hnext : c.next = some a := by
      obtain ⟨r,-,rfl,c',hc',hs⟩ := Segment.append.mp h.chain
      obtain rfl : c = c' := some.inj (hc.symm.trans hc')
      exact hs.1
    have hhead : m.timerList ≠ some a := by
      rw [h.chain.head_eq]
      intro ha
      have hmem : a ∈ pre ++ [b] := by
        cases pre with
        | nil =>
          obtain rfl : b = a := by simpa using ha
          simp
        | cons x pre =>
          obtain rfl : x = a := by simpa using ha
          simp
      have hnd' := h.nodup
      rw [← singleton_append,← append_assoc] at hnd'
      exact (List.nodup_append.mp hnd').2.2 a hmem a mem_cons_self rfl
    have hload : ∀ tail, ({ m with listTail := tail } : TimerManager σ).load b = .ok c :=
      fun _ => load_of_read hc
    have hm : m.removeTimer a (some b) =
        .ok ({ m with listTail := if m.listTail = some a then some b else m.listTail }.store b
          { c with next := t.next }) := by
      by_cases hlast : m.listTail = some a <;>
        simp [TimerManager.removeTimer,load_of_read hc,load_of_read ht,hnext,hhead,hlast,hload,
          bind,Except.bind,pure,Except.pure]
    have hread : ∀ x, (TimerManager.store { m with listTail := if m.listTail = some a then some b
        else m.listTail } b { c with next := t.next }).read x =
        if x = b then some { c with next := t.next } else m.read x :=
      fun x => read_store _ b x _
    rw [getLast?_concat] at htail ⊢
    refine ⟨_,hm,⟨?_,hnd,?_⟩,fun x => ?_,rfl,rfl,rfl,rfl⟩
    · exact h.chain.remove h.nodup hc ht hread rfl
    · exact htail.symm
    · rw [cell,cell,hread]
      split
      · next hx =>
        subst hx
        rw [hc]
        rfl
      · rfl

private theorem Linked.insertBehind {b : Addr} {c : Timer σ} (h : Linked m (pre ++ b :: post))
    (m' : TimerManager σ) (ha : a ∉ pre ++ b :: post) (hc : m.read b = some c)
    (ht : m.read a = some t)
    (hread : ∀ x, m'.read x = if x = b then some { c with next := some a }
      else if x = a then some { t with next := c.next } else m.read x)
    (hlist : m'.timerList = m.timerList)
    (htail : m'.listTail = if m.listTail = some b then some a else m.listTail) :
    Linked m' (pre ++ b :: a :: post) ∧ ∀ x, m'.cell x = m.cell x := by
  refine ⟨⟨?_,?_,?_⟩,fun x => ?_⟩
  · rw [hlist]
    exact h.chain.insert h.nodup ha hc hread rfl rfl
  · have hperm : (pre ++ b :: a :: post).Perm (a :: (pre ++ b :: post)) :=
      ((List.Perm.swap a b post).append_left pre).trans perm_middle
    rw [hperm.nodup_iff]
    exact List.nodup_cons.mpr ⟨ha,h.nodup⟩
  · rw [htail,h.tail]
    rcases eq_nil_or_concat post with rfl | ⟨post,z,rfl⟩
    · simp
    · have hz : z ≠ b := by
        rintro rfl
        have hnd := h.nodup
        simp [nodup_append] at hnd
      have hlast : (pre ++ b :: (post ++ [z])).getLast? = some z := by
        rw [← cons_append,← append_assoc,getLast?_concat]
      rw [concat_eq_append,hlast,if_neg (by simpa using hz),← cons_append,
        ← cons_append,← append_assoc,getLast?_concat]
  · rw [cell,cell,hread]
    split
    · next hx =>
      subst hx
      rw [hc]
      rfl
    · split
      · next hx =>
        subst hx
        rw [ht]
        rfl
      · rfl

def Shows (m : TimerManager σ) (l : List Addr) (us : List (Timer σ)) : Prop :=
  l.map m.cell = us.map some

variable {us : List (Timer σ)}

theorem Relinked.shows (h : Relinked m m') (hus : m.Shows l us) :
    m'.Shows l us := by
  rw [Shows,← hus]
  exact map_congr_left fun p _ => h.cells p

private theorem shows_append (h : m.Shows (pre ++ post) us) :
    ∃ vs ws, us = vs ++ ws ∧ m.Shows pre vs ∧ m.Shows post ws := by
  rw [Shows,map_append,eq_comm,map_eq_append_iff] at h
  obtain ⟨vs,ws,rfl,hv,hw⟩ := h
  exact ⟨vs,ws,rfl,hv.symm,hw.symm⟩

private theorem Shows.mem (h : m.Shows l us) (hu : u ∈ us) :
    ∃ p ∈ l, m.cell p = some u := by
  have hmem : some u ∈ us.map some := mem_map_of_mem hu
  rw [← h] at hmem
  exact List.mem_map.mp hmem

private theorem cell_store_link (ht : m.read a = some t) (n : Option Addr) (x : Addr) :
    (m.store a { t with next := n }).cell x = m.cell x := by
  rw [cell,cell,read_store]
  split
  · next hx =>
    subst hx
    rw [ht]
    rfl
  · rfl

private theorem Linked.insertTimer_empty (h : Linked m []) (ht : m.read a = some t) :
    ∃ m', m.insertTimer a = .ok m' ∧ Linked m' [a] ∧ Relinked m m' := by
  have hlist : m.timerList = none := h.chain
  have hm : m.insertTimer a = .ok ({ m with timerList := some a, listTail := some a }.store a
      { t with next := none }) := by
    rw [TimerManager.insertTimer,load_of_read ht]
    simp only [bind,Except.bind,hlist]
    rfl
  refine ⟨_,hm,⟨⟨rfl,{ t with next := none },?_,rfl⟩,nodup_singleton a,rfl⟩,
    cell_store_link (m := { m with timerList := some a, listTail := some a }) ht none,rfl,rfl,rfl,
    rfl⟩
  rw [read_store,if_pos rfl]

private theorem Linked.insertTimer_front {f : Addr} {first : Timer σ} (h : Linked m (f :: l))
    (ha : a ∉ f :: l) (ht : m.read a = some t) (hf : m.read f = some first)
    (hlt : t.when < first.when) :
    ∃ m', m.insertTimer a = .ok m' ∧ Linked m' (a :: f :: l) ∧ Relinked m m' := by
  have hlist : m.timerList = some f := h.chain.1
  have hm : m.insertTimer a = .ok ({ m with timerList := some a }.store a
      { t with next := some f }) := by
    rw [TimerManager.insertTimer,load_of_read ht]
    simp only [bind,Except.bind,hlist,load_of_read hf,if_pos hlt]
    rfl
  refine ⟨_,hm,⟨?_,List.nodup_cons.mpr ⟨ha,h.nodup⟩,?_⟩,
    cell_store_link (m := { m with timerList := some a }) ht (some f),rfl,rfl,rfl,rfl⟩
  · refine ⟨rfl,{ t with next := some f },by rw [read_store,if_pos rfl],?_⟩
    have hs := h.chain
    rw [hlist] at hs
    refine hs.congr fun x hx => ?_
    have hxa : x ≠ a := fun hxa => ha (hxa ▸ hx)
    rw [read_store,if_neg hxa]
    rfl
  · show m.listTail = _
    rw [h.tail]
    rfl

private theorem Linked.insertTimer_back {f z : Addr} {first : Timer σ} (h : Linked m l)
    (hl : l = f :: post) (hz : l = pre ++ [z]) (ha : a ∉ l) (ht : m.read a = some t)
    (hf : m.read f = some first) (hlt : ¬ t.when < first.when) (hnever : t.when = timeTNever) :
    ∃ m', m.insertTimer a = .ok m' ∧ Linked m' (l ++ [a]) ∧ Relinked m m' := by
  have hlist : m.timerList = some f := by rw [h.chain.head_eq,hl]; rfl
  have htail : m.listTail = some z := by rw [h.tail,hz,getLast?_concat]
  subst hz
  obtain ⟨c,hc⟩ := h.read (a := z) (by simp)
  have hnone : c.next = none := by
    obtain ⟨-,c',hc',hn⟩ := Segment.snoc.mp h.chain
    obtain rfl : c = c' := some.inj (hc.symm.trans hc')
    exact hn
  have hza : z ≠ a := fun hza => ha (by simp [hza])
  have hload : (m.store a { t with next := none }).load z = .ok c :=
    load_of_read (by rw [read_store,if_neg hza,hc])
  have hm : m.insertTimer a = .ok ({ m.store a { t with next := none } with
      listTail := some a }.store z { c with next := some a }) := by
    rw [TimerManager.insertTimer,load_of_read ht]
    simp only [bind,Except.bind,hlist,load_of_read hf,if_neg hlt,if_pos hnever,htail,hload]
    rfl
  have hread : ∀ x, ({ m.store a { t with next := none } with
      listTail := some a }.store z { c with next := some a }).read x =
      if x = z then some { c with next := some a }
      else if x = a then some { t with next := c.next } else m.read x := by
    intro x
    rw [read_store,hnone]
    split
    · rfl
    · exact read_store m a x _
  obtain ⟨hlink,hcells⟩ := h.insertBehind _ ha hc ht hread rfl (by rw [htail,if_pos rfl]; rfl)
  refine ⟨_,hm,?_,hcells,rfl,rfl,rfl,rfl⟩
  rw [append_assoc]
  exact hlink

private theorem Linked.insertTimer_middle {f b : Addr} {first c : Timer σ}
    (h : Linked m (pre ++ b :: post)) (hl : pre ++ b :: post = f :: l)
    (ha : a ∉ pre ++ b :: post) (ht : m.read a = some t) (hf : m.read f = some first)
    (hlt : ¬ t.when < first.when) (hnever : t.when ≠ timeTNever) (hc : m.read b = some c)
    (hpoint : m.insertPoint t.when = .ok (post.head?,some b)) :
    ∃ m', m.insertTimer a = .ok m' ∧ Linked m' (pre ++ b :: a :: post) ∧ Relinked m m' := by
  have hlist : m.timerList = some f := by rw [h.chain.head_eq,hl]; rfl
  have hnext : c.next = post.head? := by
    obtain ⟨r,-,rfl,c',hc',hs⟩ := Segment.append.mp h.chain
    obtain rfl : c = c' := some.inj (hc.symm.trans hc')
    exact hs.head_eq
  have hba : b ≠ a := fun hba => ha (by simp [hba])
  have hload : (m.store a { t with next := post.head? }).load b = .ok c :=
    load_of_read (by rw [read_store,if_neg hba,hc])
  have hm : m.insertTimer a = .ok (if m.listTail = some b
      then { (m.store a { t with next := post.head? }).store b { c with next := some a } with
        listTail := some a }
      else (m.store a { t with next := post.head? }).store b { c with next := some a }) := by
    rw [TimerManager.insertTimer,load_of_read ht]
    simp only [bind,Except.bind,hlist,load_of_read hf,if_neg hlt,if_neg hnever,hpoint,hload]
    rfl
  have hread : ∀ x, ((m.store a { t with next := post.head? }).store b
      { c with next := some a }).read x = if x = b then some { c with next := some a }
      else if x = a then some { t with next := c.next } else m.read x := by
    intro x
    rw [read_store,read_store,hnext]
  rw [hm]
  split
  · next htail =>
    obtain ⟨hlink,hcells⟩ := h.insertBehind { (m.store a { t with next := post.head? }).store b
      { c with next := some a } with listTail := some a } ha hc ht hread rfl (by rw [if_pos htail])
    exact ⟨_,rfl,hlink,hcells,rfl,rfl,rfl,rfl⟩
  · next htail =>
    obtain ⟨hlink,hcells⟩ := h.insertBehind _ ha hc ht hread rfl (by rw [if_neg htail]; rfl)
    exact ⟨_,rfl,hlink,hcells,rfl,rfl,rfl,rfl⟩

private theorem place_of_walk {vs ws : List (Timer σ)} (hvs : m.Shows pre vs)
    (hws : m.Shows post ws)
    (hpre : ∀ q ∈ pre, ∃ v, m.read q = some v ∧ decide (t.when < v.when) = false)
    (hpost : ∀ q, post.head? = some q → ∃ v, m.read q = some v ∧ decide (t.when < v.when) = true) :
    place t.unlink (vs ++ ws) = vs ++ t.unlink :: ws := by
  refine place_append (fun v hv => ?_) fun w hw => ?_
  · obtain ⟨q,hq,hcq⟩ := hvs.mem hv
    obtain ⟨v',hv',hstop⟩ := hpre q hq
    rw [cell_of_read hv'] at hcq
    rw [← some.inj hcq]
    exact Int.not_lt.mp (of_decide_eq_false hstop)
  · cases ws with
    | nil => simp at hw
    | cons w' ws =>
      obtain rfl : w' = w := by simpa using hw
      cases post with
      | nil => simp [Shows] at hws
      | cons q post =>
        obtain ⟨v,hv,hstop⟩ := hpost q rfl
        have hcq := (List.cons_eq_cons.mp hws).1
        rw [cell_of_read hv] at hcq
        rw [← some.inj hcq]
        exact of_decide_eq_true hstop

theorem Linked.insertTimer (h : Linked m l) (ha : a ∉ l)
    (ht : m.read a = some t) (hus : m.Shows l us) :
    ∃ m' l', m.insertTimer a = .ok m' ∧ Linked m' l' ∧ Relinked m m' ∧
      (∀ x, x ∈ l' ↔ x = a ∨ x ∈ l) ∧ m'.Shows l' (enqueue t.unlink us) := by
  have hcell : m.cell a = some t.unlink := cell_of_read ht
  cases l with
  | nil =>
    obtain ⟨m',hm,hlink,hre⟩ := h.insertTimer_empty ht
    obtain rfl : us = [] := by simpa [Shows] using hus.symm
    refine ⟨m',[a],hm,hlink,hre,by simp,?_⟩
    simp [Shows,hre.cells,hcell,enqueue]
  | cons f l =>
    obtain ⟨first,hfirst⟩ := h.read (a := f) mem_cons_self
    cases us with
    | nil => simp [Shows] at hus
    | cons u us =>
      have hu : first.unlink = u := by
        have hf := (List.cons_eq_cons.mp hus).1
        rw [cell_of_read hfirst] at hf
        exact some.inj hf
      have hwhen : u.when = first.when := by rw [← hu]; rfl
      by_cases hlt : t.when < first.when
      · obtain ⟨m',hm,hlink,hre⟩ := h.insertTimer_front ha ht hfirst hlt
        refine ⟨m',a :: f :: l,hm,hlink,hre,by simp,?_⟩
        rw [enqueue,if_pos (hwhen ▸ hlt)]
        exact List.cons_eq_cons.mpr ⟨(hre.cells a).trans hcell,hre.shows hus⟩
      · have hlt' : ¬ t.unlink.when < u.when := hwhen ▸ hlt
        by_cases hnever : t.when = timeTNever
        · have hnever' : t.unlink.when = timeTNever := hnever
          obtain ⟨pre,z,hz⟩ := (eq_nil_or_concat (f :: l)).resolve_left (by simp)
          obtain ⟨m',hm,hlink,hre⟩ :=
            h.insertTimer_back rfl (hz.trans concat_eq_append) ha ht hfirst hlt hnever
          refine ⟨m',f :: l ++ [a],hm,hlink,hre,?_,?_⟩
          · intro x
            rw [mem_append,mem_singleton]
            exact or_comm
          · rw [enqueue,if_neg hlt',if_pos hnever',Shows,map_append,map_append,
              hre.shows hus,map_singleton,map_singleton,hre.cells,hcell]
        · have hnever' : ¬ t.unlink.when = timeTNever := hnever
          obtain ⟨pre,post,hl,hw,hpre,hpost⟩ := h.walk fun v => t.when < v.when
          rcases eq_nil_or_concat pre with rfl | ⟨pre,b,rfl⟩
          · obtain ⟨v,hv,hstop⟩ := hpost f (by rw [← nil_append post,← hl]; rfl)
            obtain rfl : first = v := some.inj (hfirst.symm.trans hv)
            exact absurd (of_decide_eq_true hstop) hlt
          · simp only [concat_eq_append,append_assoc,singleton_append] at hl hw hpre
            rw [hl] at h ha hus
            obtain ⟨c,hc⟩ := h.read (a := b) (by simp)
            obtain ⟨m',hm,hlink,hre⟩ := h.insertTimer_middle hl.symm ha ht hfirst hlt hnever hc
              (by rw [insertPoint,hw,getLast?_concat])
            have hsplit : pre ++ b :: post = (pre ++ [b]) ++ post := by simp
            rw [hsplit] at hus
            obtain ⟨vs,ws,hus',hvs,hws⟩ := shows_append hus
            refine ⟨m',pre ++ b :: a :: post,hm,hlink,hre,?_,?_⟩
            · intro x
              rw [hl]
              simp only [mem_append,mem_cons]
              tauto
            · have hplace := place_of_walk hvs hws hpre hpost
              have hvs' := hre.shows hvs
              have hws' := hre.shows hws
              rw [Shows] at hvs' hws'
              rw [enqueue,if_neg hlt',if_neg hnever',hus',hplace,Shows]
              simp [← hvs',← hws',hre.cells a,hcell]

end TimerManager

end Condor.DaemonCore
