import Condor.DaemonCore.Schedule

/-!
# The timer manager keeps the schedule

Every call of the pointer program is matched by the same call on the schedule, with the same
events, and reaches none of its assertions.
-/

namespace Condor.DaemonCore

open Condor.Lib List Option

variable {σ : Type}

namespace TimerManager

variable {m m' : TimerManager σ} {l pre post : List Addr} {a p q : Addr} {t t' u : Timer σ}
  {us : List (Timer σ)} {s : Schedule σ}

theorem Linked.store (h : Linked m l) (t' : Timer σ) (hp : m.read p = some t)
    (hn : t'.next = t.next) :
    Linked (m.store p t') l := by
  refine ⟨h.chain.congr fun x _ => ?_,h.nodup,h.tail⟩
  rw [read_store]
  split
  · next hx =>
    subst hx
    rw [hp,map_some,map_some,hn]
  · rfl

private theorem cell_store (m : TimerManager σ) (p x : Addr) (t : Timer σ) :
    (m.store p t).cell x = if x = p then some t.unlink else m.cell x := by
  rw [cell,read_store]
  split <;> rfl

theorem Shows.store (h : m.Shows l us) (hp : p ∉ l) : (m.store p t).Shows l us := by
  rw [Shows,← h]
  refine map_congr_left fun x hx => ?_
  have hxp : x ≠ p := fun hxp => hp (hxp ▸ hx)
  rw [cell_store,if_neg hxp]

structure Mirrors (m : TimerManager σ) (s : Schedule σ) (l : List Addr) : Prop where
  linked : Linked m l
  timers : m.Shows l s.timers
  distinct : ∀ p q t u, m.cell p = some t → m.cell q = some u → t.id = u.id → p = q
  below : ∀ p t, m.cell p = some t → t.id < m.timerIds
  timerIds : s.timerIds = m.timerIds
  didReset : s.didReset = m.didReset
  didCancel : s.didCancel = m.didCancel
  idle : m.inTimeout = none → s.running = none
  busy : ∀ p, m.inTimeout = some p →
    ∃ t, m.cell p = some t ∧ s.running = some t.id ∧ (m.didCancel = false ↔ p ∈ l)

theorem Mirrors.relinked (h : Mirrors m s l) (hre : Relinked m m') (hl : Linked m' post)
    (hus : m'.Shows post us) (hmem : ∀ p, m.inTimeout = some p → (p ∈ post ↔ p ∈ l)) :
    Mirrors m' { s with timers := us } post where
  linked := hl
  timers := hus
  distinct p q t u := by
    rw [hre.cells,hre.cells]
    exact h.distinct p q t u
  below p t := by
    rw [hre.cells,hre.timerIds]
    exact h.below p t
  timerIds := h.timerIds.trans hre.timerIds.symm
  didReset := h.didReset.trans hre.didReset.symm
  didCancel := h.didCancel.trans hre.didCancel.symm
  idle hidle := h.idle (hre.inTimeout.symm.trans hidle)
  busy p hp := by
    rw [hre.inTimeout] at hp
    rw [hre.cells,hre.didCancel,hmem p hp]
    exact h.busy p hp

theorem Mirrors.getTimer (h : Mirrors m s l) (id : Int) :
    (s.find id = none ∧ ∃ trail, m.getTimer id = .ok (none,trail)) ∨
    ∃ pre a post t, l = pre ++ a :: post ∧ m.getTimer id = .ok (some a,pre.getLast?) ∧
      m.read a = some t ∧ t.id = id ∧ s.find id = some t.unlink ∧
      m.Shows (pre ++ post) (Schedule.without s.timers id) := by
  obtain ⟨pre,post,hl,hw,hpre,hpost⟩ := h.linked.walk fun t => t.id = id
  have htimers := h.timers
  rw [hl,Shows,map_append,eq_comm,map_eq_append_iff] at htimers
  obtain ⟨vs,ws,hs,hvs,hws⟩ := htimers
  have hvid : ∀ v ∈ vs, ¬ decide (v.id = id) = true := by
    intro v hv
    have hmem : some v ∈ vs.map some := mem_map_of_mem hv
    rw [hvs] at hmem
    obtain ⟨q,hq,hcq⟩ := List.mem_map.mp hmem
    obtain ⟨t,ht,hid⟩ := hpre q hq
    rw [cell_of_read ht] at hcq
    rw [← some.inj hcq]
    show ¬ decide (t.id = id) = true
    simpa using hid
  cases post with
  | nil =>
    left
    obtain rfl : ws = [] := by simpa using hws
    refine ⟨?_,pre.getLast?,hw⟩
    rw [Schedule.find,hs,append_nil,find?_eq_none]
    exact hvid
  | cons a post =>
    right
    obtain ⟨t,ht,hid⟩ := hpost a rfl
    cases ws with
    | nil => simp at hws
    | cons w ws =>
      obtain ⟨hw0,hrest⟩ := List.cons_eq_cons.mp hws
      rw [cell_of_read ht] at hw0
      obtain rfl : w = t.unlink := some.inj hw0
      have hwid : (fun v : Timer σ => decide (v.id = id)) t.unlink = true := hid
      refine ⟨pre,a,post,t,hl,hw,ht,of_decide_eq_true hid,?_,?_⟩
      · rw [Schedule.find,hs,find?_append,List.find?_eq_none.mpr hvid,
          find?_cons_of_pos (a := t.unlink) hwid]
        rfl
      · rw [Shows,Schedule.without,hs,eraseP_append_right _ hvid,
          eraseP_cons_of_pos (a := t.unlink) hwid,
          map_append,map_append,hvs,hrest]

private theorem Mirrors.not_mem (h : Mirrors m s l) (ha : m.read a = none) : a ∉ l := by
  intro hmem
  obtain ⟨t,ht⟩ := h.linked.read hmem
  rw [ha] at ht
  cases ht

private theorem Mirrors.alloc (h : Mirrors m s l) (ha : m.read a = none) (ht : t.id = m.timerIds) :
    Mirrors ({ m with timerIds := m.timerIds + 1 }.store a t)
      { s with timerIds := s.timerIds + 1 } l := by
  have hal := h.not_mem ha
  have hcell : ∀ x, ({ m with timerIds := m.timerIds + 1 }.store a t).cell x =
      if x = a then some t.unlink else m.cell x := fun x => cell_store _ a x t
  have hold : ∀ x u, ({ m with timerIds := m.timerIds + 1 }.store a t).cell x = some u → x ≠ a →
      m.cell x = some u := by
    intro x u hx hxa
    rw [hcell,if_neg hxa] at hx
    exact hx
  have hnew : ∀ x u, ({ m with timerIds := m.timerIds + 1 }.store a t).cell x = some u → x = a →
      u.id = m.timerIds := by
    intro x u hx hxa
    rw [hcell,if_pos hxa] at hx
    rw [← some.inj hx]
    exact ht
  refine ⟨⟨h.linked.chain.congr fun x hx => ?_,h.linked.nodup,h.linked.tail⟩,
    Shows.store h.timers hal,?_,?_,by rw [h.timerIds]; rfl,h.didReset,h.didCancel,h.idle,?_⟩
  · have hxa : x ≠ a := fun hxa => hal (hxa ▸ hx)
    rw [read_store,if_neg hxa]
    rfl
  · intro p q v w hp hq hvw
    by_cases hpa : p = a <;> by_cases hqa : q = a
    · rw [hpa,hqa]
    · have hlt := h.below q w (hold q w hq hqa)
      rw [← hvw,hnew p v hp hpa] at hlt
      exact absurd hlt (Int.lt_irrefl _)
    · have hlt := h.below p v (hold p v hp hpa)
      rw [hvw,hnew q w hq hqa] at hlt
      exact absurd hlt (Int.lt_irrefl _)
    · exact h.distinct p q v w (hold p v hp hpa) (hold q w hq hqa) hvw
  · intro p v hp
    by_cases hpa : p = a
    · rw [hnew p v hp hpa]
      exact Int.lt_succ m.timerIds
    · exact Int.lt_trans (h.below p v (hold p v hp hpa)) (Int.lt_succ m.timerIds)
  · intro p hp
    obtain ⟨v,hv,hrun⟩ := h.busy p hp
    have hpa : p ≠ a := by
      rintro rfl
      rw [cell,ha] at hv
      cases hv
    refine ⟨v,?_,hrun⟩
    rw [hcell,if_neg hpa,hv]

private theorem Mirrors.changed (h : Mirrors m s l) (m' : TimerManager σ) (p : Addr) (t' : Timer σ)
    (us : List (Timer σ)) (hp : m.cell p = some t) (hid : t'.id = t.id)
    (hcell : ∀ x, m'.cell x = if x = p then some t' else m.cell x)
    (hids : m'.timerIds = m.timerIds) (hin : m'.inTimeout = m.inTimeout)
    (hreset : m'.didReset = m.didReset) (hcancel : m'.didCancel = m.didCancel)
    (hl : Linked m' post) (hus : m'.Shows post us) (hmem : ∀ x, x ∈ post ↔ x ∈ l) :
    Mirrors m' { s with timers := us } post := by
  have hold : ∀ x u, m'.cell x = some u → ∃ v, m.cell x = some v ∧ u.id = v.id := by
    intro x u hx
    rw [hcell] at hx
    split at hx
    · next hxp =>
      subst hxp
      exact ⟨t,hp,by rw [← some.inj hx,hid]⟩
    · exact ⟨u,hx,rfl⟩
  refine ⟨hl,hus,?_,?_,h.timerIds.trans hids.symm,h.didReset.trans hreset.symm,
    h.didCancel.trans hcancel.symm,fun hidle => h.idle (hin.symm.trans hidle),?_⟩
  · intro x y u v hx hy huv
    obtain ⟨u',hu',hu⟩ := hold x u hx
    obtain ⟨v',hv',hv⟩ := hold y v hy
    exact h.distinct x y u' v' hu' hv' (hu.symm.trans (huv.trans hv))
  · intro x u hx
    obtain ⟨u',hu',hu⟩ := hold x u hx
    rw [hu,hids]
    exact h.below x u' hu'
  · intro x hx
    obtain ⟨v,hv,hrun,hlist⟩ := h.busy x (hin.symm.trans hx)
    rw [hcancel,hmem x]
    by_cases hxp : x = p
    · subst hxp
      obtain rfl : t = v := some.inj (hp.symm.trans hv)
      exact ⟨t',by rw [hcell,if_pos rfl],by rw [hrun,hid],hlist⟩
    · exact ⟨v,by rw [hcell,if_neg hxp,hv],hrun,hlist⟩

private theorem Mirrors.erased (h : Mirrors m s l) (m' : TimerManager σ) (p : Addr)
    (hp : m.inTimeout ≠ some p) (hcell : ∀ x, m'.cell x = if x = p then none else m.cell x)
    (hids : m'.timerIds = m.timerIds) (hin : m'.inTimeout = m.inTimeout)
    (hreset : m'.didReset = m.didReset) (hcancel : m'.didCancel = m.didCancel)
    (hl : Linked m' post) (hus : m'.Shows post us) (hmem : ∀ x, x ≠ p → (x ∈ post ↔ x ∈ l)) :
    Mirrors m' { s with timers := us } post := by
  have hold : ∀ x u, m'.cell x = some u → m.cell x = some u := by
    intro x u hx
    rw [hcell] at hx
    split at hx
    · cases hx
    · exact hx
  refine ⟨hl,hus,?_,?_,h.timerIds.trans hids.symm,h.didReset.trans hreset.symm,
    h.didCancel.trans hcancel.symm,fun hidle => h.idle (hin.symm.trans hidle),?_⟩
  · intro x y u v hx hy
    exact h.distinct x y u v (hold x u hx) (hold y v hy)
  · intro x u hx
    rw [hids]
    exact h.below x u (hold x u hx)
  · intro x hx
    rw [hin] at hx
    have hxp : x ≠ p := by
      rintro rfl
      exact hp hx
    rw [hcell,if_neg hxp,hcancel,hmem x hxp]
    exact h.busy x hx

private theorem deleteTimer_of_read (hp : m.read p = some t) :
    m.deleteTimer p = .ok { m with heap := m.heap.erase p } := by
  rw [deleteTimer,load_of_read hp]
  rfl

private theorem read_erase (m : TimerManager σ) (p x : Addr) :
    ({ m with heap := m.heap.erase p } : TimerManager σ).read x =
      if x = p then none else m.read x := by
  by_cases h : x = p
  · subst h
    simp [read]
  · simp [read,h]

private theorem cell_erase (m : TimerManager σ) (p x : Addr) :
    ({ m with heap := m.heap.erase p } : TimerManager σ).cell x =
      if x = p then none else m.cell x := by
  rw [cell,read_erase]
  split <;> rfl

theorem Linked.erase (h : Linked m l) (hp : p ∉ l) :
    Linked { m with heap := m.heap.erase p } l := by
  refine ⟨h.chain.congr fun x hx => ?_,h.nodup,h.tail⟩
  have hxp : x ≠ p := fun hxp => hp (hxp ▸ hx)
  rw [read_erase,if_neg hxp]

theorem Shows.erase (h : m.Shows l us) (hp : p ∉ l) :
    Shows { m with heap := m.heap.erase p } l us := by
  rw [Shows,← h]
  refine map_congr_left fun x hx => ?_
  have hxp : x ≠ p := fun hxp => hp (hxp ▸ hx)
  rw [cell_erase,if_neg hxp]

theorem Linked.not_mem_rest (h : Linked m (pre ++ a :: post)) : a ∉ pre ++ post :=
  (List.nodup_cons.mp (List.perm_middle.nodup_iff.mp h.nodup)).1

private theorem Mirrors.moved (h : Mirrors m s (pre ++ p :: post)) (hp : m.read p = some t)
    (hid : t'.id = t.id) (hn : t'.next = t.next) (hus : m.Shows (pre ++ post) us) :
    ∃ m1 m' l', (m.store p t').removeTimer p pre.getLast? = .ok m1 ∧ m1.insertTimer p = .ok m' ∧
      Mirrors m' { s with timers := enqueue t'.unlink us } l' ∧ m'.inTimeout = m.inTimeout := by
  have hpl := h.linked.not_mem_rest
  obtain ⟨m1,hm1,hlink1,hre1⟩ := (h.linked.store t' hp hn).removeTimer
  obtain ⟨t1,ht1,hu1⟩ := hre1.read (p := p) (by rw [read_store,if_pos rfl])
  obtain ⟨m',l',hm',hlink',hre',hmem,hus'⟩ :=
    hlink1.insertTimer hpl ht1 (hre1.shows (hus.store hpl))
  rw [hu1] at hus'
  have hre := hre1.trans hre'
  refine ⟨m1,m',l',hm1,hm',?_,hre.inTimeout⟩
  refine h.changed _ p t'.unlink _ (cell_of_read hp) hid ?_ hre.timerIds hre.inTimeout
    hre.didReset hre.didCancel hlink' hus' fun x => ?_
  · intro x
    rw [hre.cells,cell_store]
  · rw [hmem]
    simp only [mem_append,mem_cons]
    tauto

theorem Mirrors.inTimeout_iff (h : Mirrors m s l) (hp : m.cell p = some t) :
    m.inTimeout = some p ↔ s.running = some t.id := by
  constructor
  · intro hin
    obtain ⟨u,hu,hrun,-⟩ := h.busy p hin
    obtain rfl : t = u := some.inj (hp.symm.trans hu)
    exact hrun
  · intro hrun
    cases hin : m.inTimeout with
    | none =>
      rw [h.idle hin] at hrun
      cases hrun
    | some q =>
      obtain ⟨u,hu,hrun',-⟩ := h.busy q hin
      rw [hrun] at hrun'
      rw [h.distinct p q t u hp hu (some.inj hrun')]

private theorem Mirrors.timerList_ne (h : Mirrors m s (pre ++ a :: post)) : m.timerList ≠ none := by
  rw [h.linked.chain.head_eq]
  simp

private theorem Mirrors.setReset (h : Mirrors m s l) :
    Mirrors { m with didReset := true } { s with didReset := true } l :=
  ⟨⟨h.linked.chain,h.linked.nodup,h.linked.tail⟩,h.timers,h.distinct,h.below,h.timerIds,rfl,
    h.didCancel,h.idle,h.busy⟩

theorem Mirrors.cancelTimer (h : Mirrors m s l) (id : Int) :
    ∃ rc m' l', m.cancelTimer id = .ok (rc,m') ∧ Mirrors m' (s.cancel id).1 l' ∧
      (s.cancel id).2 = (if rc = 0 then [.cancelled id] else []) ∧
      m'.inTimeout = m.inTimeout := by
  unfold TimerManager.cancelTimer Schedule.cancel
  rcases h.getTimer id with ⟨hfind,trail,hget⟩ | ⟨pre,p,post,t,rfl,hget,hp,hid,hfind,hus⟩
  · rw [hfind]
    split
    · exact ⟨-1,m,l,rfl,h,rfl,rfl⟩
    · simp only [hget,bind,Except.bind]
      exact ⟨-1,m,l,rfl,h,rfl,rfl⟩
  · have hpl := h.linked.not_mem_rest
    obtain ⟨m1,hm1,hlink1,hre1⟩ := h.linked.removeTimer
    have hus1 := hre1.shows hus
    rw [hfind,if_neg h.timerList_ne]
    simp only [hget,hm1,bind,Except.bind]
    have hiff : m1.inTimeout = some p ↔ s.running = some id := by
      rw [hre1.inTimeout,h.inTimeout_iff (cell_of_read hp),← hid]
      rfl
    by_cases hrun : s.running = some id
    · have hin := hiff.mpr hrun
      rw [if_pos hin]
      refine ⟨0,_,pre ++ post,rfl,?_,rfl,hre1.inTimeout⟩
      rw [decide_eq_true hrun,Bool.or_true]
      refine ⟨⟨hlink1.chain,hlink1.nodup,hlink1.tail⟩,hus1,?_,?_,h.timerIds.trans
        hre1.timerIds.symm,h.didReset.trans hre1.didReset.symm,rfl,?_,?_⟩
      · intro x y u v hx hy
        exact h.distinct x y u v ((hre1.cells x).symm.trans hx) ((hre1.cells y).symm.trans hy)
      · intro x u hx
        show u.id < m1.timerIds
        rw [hre1.timerIds]
        exact h.below x u ((hre1.cells x).symm.trans hx)
      · intro hidle
        rw [show m1.inTimeout = none from hidle] at hin
        cases hin
      · intro x hx
        obtain rfl : p = x := some.inj (hin.symm.trans hx)
        refine ⟨t.unlink,(hre1.cells p).trans (cell_of_read hp),hrun.trans (by rw [← hid]; rfl),?_⟩
        simp [hpl]
    · have hin : ¬ m1.inTimeout = some p := fun hin => hrun (hiff.mp hin)
      obtain ⟨t1,ht1,-⟩ := hre1.read hp
      rw [if_neg hin]
      simp only [deleteTimer_of_read ht1]
      refine ⟨0,_,pre ++ post,rfl,?_,rfl,hre1.inTimeout⟩
      rw [decide_eq_false hrun,Bool.or_false]
      refine h.erased _ p ?_ ?_ hre1.timerIds hre1.inTimeout hre1.didReset hre1.didCancel
        (hlink1.erase hpl) (hus1.erase hpl) ?_
      · rw [← hre1.inTimeout]
        exact hin
      · intro x
        rw [cell_erase,hre1.cells]
      · intro x hx
        simp [hx]

private theorem cancelAllLoop_eq (l : List Addr) : ∀ (n : Nat) (m : TimerManager σ), l.length < n →
    Segment m.read Timer.next m.timerList l none → l.Nodup →
    ∃ m', cancelAllLoop n m = .ok m' ∧ m'.timerList = none ∧ m'.listTail = none ∧
      m'.timerIds = m.timerIds ∧ m'.inTimeout = m.inTimeout ∧ m'.didReset = m.didReset ∧
      m'.didCancel = (m.didCancel || l.any fun p => m.inTimeout = some p) ∧
      ∀ x, m'.read x = if x ∈ l ∧ m.inTimeout ≠ some x then none else m.read x := by
  induction l with
  | nil =>
    intro n m hn hs _
    obtain ⟨n,rfl⟩ : ∃ k, n = k + 1 := ⟨n - 1,by simp at hn; omega⟩
    have hlist : m.timerList = none := hs
    rw [cancelAllLoop,hlist]
    exact ⟨_,rfl,rfl,rfl,rfl,rfl,rfl,by simp,by simp [TimerManager.read]⟩
  | cons a l ih =>
    intro n m hn hs hnd
    obtain ⟨n,rfl⟩ : ∃ k, n = k + 1 := ⟨n - 1,by simp at hn; omega⟩
    obtain ⟨hlist,t,ht,hs⟩ := hs
    obtain ⟨hal,hnd⟩ := List.nodup_cons.mp hnd
    have hn : l.length < n := by simpa using hn
    rw [cancelAllLoop,hlist]
    simp only [load_of_read ht,bind,Except.bind]
    by_cases hin : m.inTimeout = some a
    · rw [if_pos hin]
      obtain ⟨m',hm',h1,h2,h3,h4,h5,h6,h7⟩ :=
        ih n { m with timerList := t.next, didCancel := true } hn hs hnd
      refine ⟨m',hm',h1,h2,h3,h4,h5,?_,fun x => ?_⟩
      · rw [h6]
        simp [hin]
      · rw [h7]
        by_cases hx : x = a
        · subst hx
          simp [hin,TimerManager.read]
        · simp [hx,TimerManager.read]
    · rw [if_neg hin,deleteTimer_of_read (m := { m with timerList := t.next }) ht]
      have hs' : Segment (TimerManager.read { m with timerList := t.next, heap := m.heap.erase a })
          Timer.next t.next l none := by
        refine hs.congr fun x hx => ?_
        have hxa : x ≠ a := fun hxa => hal (hxa ▸ hx)
        rw [read_erase { m with timerList := t.next } a x,if_neg hxa]
        rfl
      obtain ⟨m',hm',h1,h2,h3,h4,h5,h6,h7⟩ := ih n _ hn hs' hnd
      refine ⟨m',hm',h1,h2,h3,h4,h5,?_,fun x => ?_⟩
      · rw [h6]
        simp [hin]
      · rw [h7,read_erase { m with timerList := t.next } a x]
        by_cases hx : x = a
        · subst hx
          simp [hin]
        · simp [hx,TimerManager.read]

theorem Mirrors.mem_of_running (h : Mirrors m s l) (hin : m.inTimeout = some p) :
    p ∈ l ↔ ∃ t ∈ s.timers, s.running = some t.id := by
  constructor
  · intro hp
    obtain ⟨t,ht,hrun,-⟩ := h.busy p hin
    refine ⟨t,?_,hrun⟩
    have hmem := mem_map_of_mem (f := m.cell) hp
    rw [h.timers,ht] at hmem
    simpa using hmem
  · rintro ⟨t,ht,hrun⟩
    have hmem : some t ∈ s.timers.map some := mem_map_of_mem ht
    rw [← h.timers] at hmem
    obtain ⟨q,hq,hcq⟩ := List.mem_map.mp hmem
    obtain rfl : p = q := some.inj (hin.symm.trans ((h.inTimeout_iff hcq).mpr hrun))
    exact hq

theorem Mirrors.cancelAllTimers (h : Mirrors m s l) : ∃ m', m.cancelAllTimers = .ok m' ∧
    Mirrors m' s.cancelAll [] ∧ m'.inTimeout = m.inTimeout := by
  obtain ⟨m',hm',h1,h2,h3,h4,h5,h6,h7⟩ :=
    cancelAllLoop_eq l m.fuel m h.linked.length_lt_fuel h.linked.chain h.linked.nodup
  have hold : ∀ x u, m'.cell x = some u → m.cell x = some u := by
    intro x u hx
    rw [cell,h7] at hx
    split at hx
    · cases hx
    · exact hx
  have hcancel : m'.didCancel = s.cancelAll.didCancel := by
    rw [h6,Schedule.cancelAll,h.didCancel]
    congr 1
    rw [Bool.eq_iff_iff,List.any_eq_true,List.any_eq_true]
    constructor
    · rintro ⟨p,hp,hin⟩
      obtain ⟨t,ht,hrun⟩ := (h.mem_of_running (of_decide_eq_true hin)).mp hp
      exact ⟨t,ht,decide_eq_true hrun⟩
    · rintro ⟨t,ht,hrun⟩
      have hrun := of_decide_eq_true hrun
      cases hin : m.inTimeout with
      | none =>
        rw [h.idle hin] at hrun
        cases hrun
      | some p => exact ⟨p,(h.mem_of_running hin).mpr ⟨t,ht,hrun⟩,decide_eq_true rfl⟩
  refine ⟨m',hm',⟨⟨h1,nodup_nil,h2⟩,rfl,?_,?_,h.timerIds.trans h3.symm,
    h.didReset.trans h5.symm,hcancel.symm,fun hidle => h.idle (h4.symm.trans hidle),?_⟩,h4⟩
  · intro x y u v hx hy
    exact h.distinct x y u v (hold x u hx) (hold y v hy)
  · intro x u hx
    rw [h3]
    exact h.below x u (hold x u hx)
  · intro x hx
    rw [h4] at hx
    obtain ⟨t,ht,hrun,hmem⟩ := h.busy x hx
    refine ⟨t,?_,hrun,?_⟩
    · rw [cell,h7,if_neg fun hx' => hx'.2 hx]
      exact ht
    · have hor : m.didCancel = true ∨ x ∈ l := by
        cases hc : m.didCancel with
        | true => exact .inl rfl
        | false => exact .inr (hmem.mp hc)
      rw [h6]
      rcases hor with hc | hxl
      · simp [hc]
      · have hany : (l.any fun p => decide (m.inTimeout = some p)) = true :=
          List.any_eq_true.mpr ⟨x,hxl,decide_eq_true hx⟩
        simp [hany]

private theorem Mirrors.rest (h : Mirrors m s l) :
    Mirrors { m with inTimeout := none } { s with running := none } l :=
  ⟨⟨h.linked.chain,h.linked.nodup,h.linked.tail⟩,h.timers,h.distinct,h.below,h.timerIds,
    h.didReset,h.didCancel,fun _ => rfl,fun p hp => by cases hp⟩

private theorem Mirrors.begin (h : Mirrors m s l) (hp : m.cell p = some t) (hpl : p ∈ l) :
    Mirrors { m with inTimeout := some p, didReset := false, didCancel := false }
      { s with running := some t.id, didReset := false, didCancel := false } l := by
  refine ⟨⟨h.linked.chain,h.linked.nodup,h.linked.tail⟩,h.timers,h.distinct,h.below,h.timerIds,
    rfl,rfl,(fun hidle => nomatch hidle),fun q hq => ?_⟩
  obtain rfl : p = q := some.inj hq
  exact ⟨t,hp,rfl,iff_of_true rfl hpl⟩

variable [Timeslice σ]

theorem Mirrors.newTimer (h : Mirrors m s l) (ha : m.read a = none) (hid : m.timerIds ≠ intMax)
    (deltawhen period : UInt32) (timeslice : Option σ) (r : Readings) :
    ∃ m' l', m.newTimer a deltawhen period timeslice r = .ok (s.timerIds,m') ∧
      Mirrors m' { s with
        timers := enqueue (Timer.fresh s.timerIds deltawhen period timeslice r) s.timers
        timerIds := s.timerIds + 1 } l' ∧ m'.inTimeout = m.inTimeout := by
  have hmir := h.alloc (t := Timer.fresh s.timerIds deltawhen period timeslice r) ha h.timerIds
  obtain ⟨m',l',hm',hl',hre,hmem,hus⟩ := hmir.linked.insertTimer (h.not_mem ha)
    (by rw [read_store,if_pos rfl]) hmir.timers
  refine ⟨m',l',?_,?_,hre.inTimeout⟩
  · rw [TimerManager.newTimer,if_neg hid,← h.timerIds]
    rw [← h.timerIds] at hm'
    simp only [bind,Except.bind,pure,Except.pure,hm']
    rfl
  · refine hmir.relinked hre hl' hus fun p hp => ?_
    rw [hmem]
    refine or_iff_right ?_
    rintro rfl
    obtain ⟨v,hv,-⟩ := h.busy p hp
    rw [cell,ha] at hv
    cases hv

private theorem rescheduled_unlink (t : Timer σ) (when period : UInt32) (recomputeWhen : Bool)
    (newTimeslice : Option σ) (r : Readings) :
    t.unlink.rescheduled when period recomputeWhen newTimeslice r =
      (t.rescheduled when period recomputeWhen newTimeslice r).map Timer.unlink := by
  unfold Timer.rescheduled
  cases newTimeslice with
  | some s => rfl
  | none =>
    simp only [Timer.unlink]
    cases t.timeslice with
    | some s => rfl
    | none =>
      simp only
      by_cases hrec : recomputeWhen = true
      · rw [if_pos hrec,if_pos hrec,apply_ite (Option.map Timer.unlink)]
        rfl
      · rw [if_neg hrec,if_neg hrec,apply_ite (Option.map Timer.unlink)]
        rfl

theorem rescheduled_keeps {when period : UInt32} {recomputeWhen : Bool} {newTimeslice : Option σ}
    {r : Readings} (h : t.rescheduled when period recomputeWhen newTimeslice r = some t') :
    t'.id = t.id ∧ t'.next = t.next := by
  unfold Timer.rescheduled at h
  split at h
  · cases h
    exact ⟨rfl,rfl⟩
  · cases h
  · split at h
    · split at h <;> cases h <;> exact ⟨rfl,rfl⟩
    · split at h <;> cases h <;> exact ⟨rfl,rfl⟩

theorem Mirrors.resetTimer (h : Mirrors m s l) (id : Int) (when period : UInt32)
    (recomputeWhen : Bool) (newTimeslice : Option σ) (r : Readings) (repeats : Bool) :
    ∃ rc m' l', m.resetTimer id when period recomputeWhen newTimeslice r = .ok (rc,m') ∧
      Mirrors m' (s.reset id when period recomputeWhen newTimeslice r repeats).1 l' ∧
      (s.reset id when period recomputeWhen newTimeslice r repeats).2 =
        (if rc = 0 then [.reset id repeats] else []) ∧ m'.inTimeout = m.inTimeout := by
  unfold TimerManager.resetTimer Schedule.reset
  rcases h.getTimer id with ⟨hfind,trail,hget⟩ | ⟨pre,p,post,t,rfl,hget,hp,hid,hfind,hus⟩
  · rw [hfind]
    split
    · exact ⟨-1,m,l,rfl,h,rfl,rfl⟩
    · simp only [hget,bind,Except.bind]
      exact ⟨-1,m,l,rfl,h,rfl,rfl⟩
  · rw [hfind,if_neg h.timerList_ne]
    simp only [hget,load_of_read hp,rescheduled_unlink,bind,Except.bind]
    cases hr : t.rescheduled when period recomputeWhen newTimeslice r with
    | none => exact ⟨0,m,_,rfl,h,rfl,rfl⟩
    | some t' =>
      obtain ⟨hid',hn⟩ := rescheduled_keeps hr
      obtain ⟨m1,m',l',hm1,hm',hmir,hin⟩ := h.moved hp hid' hn hus
      simp only [map_some,hm1,hm']
      have hiff : m'.inTimeout = some p ↔ s.running = some id := by
        rw [hin,h.inTimeout_iff (cell_of_read hp),← hid]
        rfl
      by_cases hrun : s.running = some id
      · rw [if_pos (hiff.mpr hrun)]
        refine ⟨0,_,l',rfl,?_,rfl,hin⟩
        rw [decide_eq_true hrun,Bool.or_true]
        exact hmir.setReset
      · rw [if_neg fun hq => hrun (hiff.mp hq)]
        refine ⟨0,m',l',rfl,?_,rfl,hin⟩
        rw [decide_eq_false hrun,Bool.or_false]
        exact hmir

private theorem Mirrors.finish (h : Mirrors m s l) (hp : m.read p = some t) (r : Readings) :
    Mirrors (m.store p (t.finished r)) (s.finish t.id r) l := by
  refine h.changed _ p (t.finished r).unlink _ (cell_of_read hp) rfl
    (fun x => cell_store m p x _) rfl rfl rfl rfl (h.linked.store _ hp rfl) ?_ fun x => Iff.rfl
  rw [Shows,List.map_map]
  have hcells : ∀ x, (m.store p (t.finished r)).cell x =
      (m.cell x).map fun u => if u.id = t.id then u.finished r else u := by
    intro x
    rw [cell_store]
    by_cases hx : x = p
    · subst hx
      rw [if_pos rfl,cell_of_read hp,map_some]
      exact congrArg some (if_pos rfl).symm
    · rw [if_neg hx]
      cases hc : m.cell x with
      | none => rfl
      | some u =>
        rw [map_some,if_neg]
        intro hid
        exact hx (h.distinct x p u t.unlink hc (cell_of_read hp) hid)
  have hmap : l.map (fun x => (m.cell x).map fun u => if u.id = t.id then u.finished r else u) =
      (l.map m.cell).map (Option.map fun u => if u.id = t.id then u.finished r else u) := by
    rw [List.map_map]
    rfl
  rw [map_congr_left fun x _ => hcells x,hmap,h.timers,List.map_map]
  rfl

private theorem Mirrors.serviced (h : Mirrors m s l) (hin : m.inTimeout = some p)
    (hp : m.read p = some t) (hpl : p ∈ l) (r : Readings) :
    ∃ m' l', Daemon.serviced m p r = .ok m' ∧
      Mirrors { m' with inTimeout := none }
        { s with
          timers := match s.find t.id with
            | none => s.timers
            | some u => if u.repeats then enqueue (u.renewed r) (Schedule.without s.timers t.id)
              else Schedule.without s.timers t.id
          running := none } l' := by
  rcases h.getTimer t.id with ⟨hfind,trail,hget⟩ | ⟨pre,a,post,u,rfl,hget,ha,hid,hfind,hus⟩
  · obtain ⟨v,hv,hrun⟩ := (h.mem_of_running hin).mp hpl
    rw [(h.inTimeout_iff (cell_of_read hp)).mp hin] at hrun
    rw [Schedule.find,find?_eq_none] at hfind
    exact absurd (decide_eq_true (some.inj hrun).symm) (hfind v hv)
  · obtain rfl : a = p := h.distinct a p u.unlink t.unlink (cell_of_read ha) (cell_of_read hp) hid
    obtain rfl : u = t := some.inj (ha.symm.trans hp)
    have hal := h.linked.not_mem_rest
    obtain ⟨m2,hm2,hlink2,hre2⟩ := h.linked.removeTimer
    obtain ⟨t2,ht2,hu2⟩ := hre2.read hp
    have hus2 := hre2.shows hus
    have hrep : t2.repeats = u.unlink.repeats := by rw [← hu2]; rfl
    unfold Daemon.serviced
    simp only [load_of_read hp,hget,hm2,load_of_read ht2,bind,Except.bind,ne_eq,
      not_true_eq_false,if_false,hfind,hrep]
    split
    · obtain ⟨m3,l',hm3,hlink3,hre3,hmem3,hus3⟩ := (hlink2.store (t2.renewed r) ht2
        rfl).insertTimer hal (by rw [read_store,if_pos rfl]) (hus2.store hal)
      have heq : (t2.renewed r).unlink = u.unlink.renewed r := by rw [← hu2]; rfl
      rw [heq] at hus3
      refine ⟨m3,l',hm3,?_⟩
      refine (h.changed _ a (u.unlink.renewed r) _ (cell_of_read hp) rfl ?_
        (hre3.timerIds.trans hre2.timerIds) (hre3.inTimeout.trans hre2.inTimeout)
        (hre3.didReset.trans hre2.didReset) (hre3.didCancel.trans hre2.didCancel) hlink3 hus3
        ?_).rest
      · intro x
        rw [hre3.cells,cell_store,hre2.cells,heq]
      · intro x
        rw [hmem3]
        simp only [mem_append,mem_cons]
        tauto
    · refine ⟨_,pre ++ post,deleteTimer_of_read ht2,?_⟩
      refine h.rest.erased { m2 with inTimeout := none, heap := m2.heap.erase a } a
        (by simp) ?_ hre2.timerIds rfl hre2.didReset hre2.didCancel ?_ (hus2.erase hal) ?_
      · intro x
        show TimerManager.cell { m2 with heap := m2.heap.erase a } x = _
        rw [cell_erase,hre2.cells]
        rfl
      · exact ⟨(hlink2.erase hal).chain,hlink2.nodup,hlink2.tail⟩
      · intro x hx
        simp [hx]

theorem Mirrors.afterHandler {id : Int} (h : Mirrors m s l) (hin : m.inTimeout = some p)
    (hrun : s.running = some id) (r : Readings) :
    ∃ m' l', Daemon.afterHandler m p r = .ok m' ∧ Mirrors { m' with inTimeout := none }
      { s with timers := (s.finish id r).renew id r, running := none } l' := by
  obtain ⟨v,hv,hrun',hmem⟩ := h.busy p hin
  obtain ⟨t,hp,rfl⟩ := read_of_cell hv
  obtain rfl : id = t.id := some.inj (hrun.symm.trans hrun')
  have h₁ := h.finish hp r
  have hp1 : (m.store p (t.finished r)).read p = some (t.finished r) := by
    rw [read_store,if_pos rfl]
  rw [Daemon.afterHandler,load_of_read hp]
  simp only [bind,Except.bind]
  generalize hm1 : m.store p (t.finished r) = m1 at h₁ hp1
  have hin1 : m1.inTimeout = some p := by rw [← hm1]; exact hin
  have hmem1 : m1.didCancel = false ↔ p ∈ l := by rw [← hm1]; exact hmem
  generalize hs1 : s.finish t.id r = s1 at h₁
  have hs : ∀ us, ({ s with timers := us, running := none } : Schedule σ) =
      { s1 with timers := us, running := none } := by
    intro us
    rw [← hs1]
    rfl
  rw [hs]
  cases hc : m1.didCancel with
  | true =>
    have hpl : p ∉ l := fun hpl => by rw [hmem1.mpr hpl] at hc; cases hc
    have hrenew : s1.renew t.id r = s1.timers := by
      rw [Schedule.renew,h₁.didCancel,hc,Bool.true_or,if_pos rfl]
    rw [deleteTimer_of_read hp1,hrenew]
    refine ⟨_,l,rfl,?_⟩
    exact h₁.rest.erased { m1 with inTimeout := none, heap := m1.heap.erase p } p
      (by simp) (fun x => cell_erase m1 p x) rfl rfl rfl rfl (h₁.rest.linked.erase hpl)
      (h₁.rest.timers.erase hpl) fun x _ => Iff.rfl
  | false =>
    cases hr : m1.didReset with
    | true =>
      have hrenew : s1.renew t.id r = s1.timers := by
        rw [Schedule.renew,h₁.didReset,hr,Bool.or_true,if_pos rfl]
      rw [hrenew]
      exact ⟨m1,l,rfl,h₁.rest⟩
    | false =>
      have hrenew : s1.renew t.id r = match s1.find t.id with
          | none => s1.timers
          | some u => if u.repeats then enqueue (u.renewed r) (Schedule.without s1.timers t.id)
            else Schedule.without s1.timers t.id := by
        rw [Schedule.renew,h₁.didReset,h₁.didCancel,hr,hc]
        exact if_neg (by simp)
      rw [hrenew]
      exact h₁.serviced hin1 hp1 (hmem1.mp hc) r

end TimerManager

namespace Daemon

open TimerManager

variable {d : Daemon σ} {s : Schedule σ} {l : List Addr} {m : TimerManager σ}

/-- The pointers hold the schedule, and the same timer is running. -/
structure Refines (d : Daemon σ) (s : Schedule σ) (l : List Addr) : Prop where
  mirrors : Mirrors d.manager s l
  frame : s.frame = d.frame
  framed : d.frame.isSome = d.manager.inTimeout.isSome

theorem refines_init : Refines (init : Daemon σ) Schedule.init [] where
  mirrors :=
    { linked := ⟨rfl,nodup_nil,rfl⟩
      timers := rfl
      distinct := fun p q t u hp => by simp [cell,TimerManager.read,init,TimerManager.init] at hp
      below := fun p t hp => by simp [cell,TimerManager.read,init,TimerManager.init] at hp
      timerIds := rfl
      didReset := rfl
      didCancel := rfl
      idle := fun _ => rfl
      busy := fun p hp => by cases hp }
  frame := rfl
  framed := rfl

private theorem head_of_shows {p : Addr} {us : List (Timer σ)} (h : m.Shows (p :: l) us) :
    ∃ t vs, us = t.unlink :: vs ∧ m.read p = some t := by
  cases us with
  | nil => simp [Shows] at h
  | cons u us =>
    obtain ⟨t,ht,rfl⟩ := read_of_cell (List.cons_eq_cons.mp h).1
    exact ⟨t,us,rfl,ht⟩

private theorem leave_refines (h : Mirrors m s l) (f : Frame) (r : Readings) :
    ∃ d', leave m f r = .ok (d',(s.leave f r).2) ∧ Refines d' (s.leave f r).1 l := by
  have hmir := h.rest
  cases l with
  | nil =>
    have hlist : m.timerList = none := h.linked.chain
    have htimers : s.timers = [] := by simpa [Shows] using h.timers.symm
    refine ⟨⟨{ m with inTimeout := none },none⟩,?_,⟨hmir.linked,hmir.timers,hmir.distinct,
      hmir.below,hmir.timerIds,hmir.didReset,hmir.didCancel,hmir.idle,hmir.busy⟩,rfl,rfl⟩
    rw [leave,Schedule.leave,hlist,htimers]
    rfl
  | cons p l =>
    have hlist : m.timerList = some p := h.linked.chain.1
    obtain ⟨t,us,hus,hp⟩ := head_of_shows h.timers
    refine ⟨⟨{ m with inTimeout := none },none⟩,?_,⟨hmir.linked,hmir.timers,hmir.distinct,
      hmir.below,hmir.timerIds,hmir.didReset,hmir.didCancel,hmir.idle,hmir.busy⟩,rfl,rfl⟩
    rw [leave,Schedule.leave,hlist,hus]
    simp only [load_of_read hp,bind,Except.bind]
    rfl

private theorem Refines.with_manager {m' : TimerManager σ} {s' : Schedule σ} {l' : List Addr}
    (h : Refines d s l) (hmir : Mirrors m' s' l') (hin : m'.inTimeout = d.manager.inTimeout)
    (hframe : s'.frame = s.frame) : Refines { d with manager := m' } s' l' :=
  ⟨hmir,hframe.trans h.frame,by rw [h.framed,hin]⟩

variable [Timeslice σ]

private theorem fire_refines {p : Addr} {t : Timer σ} {us : List (Timer σ)}
    (h : Mirrors m s (p :: l)) (hus : s.timers = t.unlink :: us) (hp : m.read p = some t)
    (f : Frame) (r : Readings) :
    Refines (fire m f p t r).1 { s with
      timers := t.unlink.started r :: us
      running := some t.id
      didReset := false
      didCancel := false
      frame := some (f.checkSkew r) } (p :: l) := by
  have hpl : p ∉ l := (List.nodup_cons.mp h.linked.nodup).1
  have hmir := h.begin (cell_of_read hp) mem_cons_self
  have hshows : m.Shows l us := by
    have htimers := h.timers
    rw [hus] at htimers
    exact (List.cons_eq_cons.mp htimers).2
  have hfinal := hmir.changed (fire m f p t r).1.manager p (t.unlink.started r)
    (t.unlink.started r :: us) (cell_of_read hp) rfl
    (fun x => cell_store _ p x _) rfl rfl rfl rfl (hmir.linked.store _ hp rfl) ?_ fun x => Iff.rfl
  · exact ⟨⟨hfinal.linked,hfinal.timers,hfinal.distinct,hfinal.below,hfinal.timerIds,
      hfinal.didReset,hfinal.didCancel,hfinal.idle,hfinal.busy⟩,rfl,rfl⟩
  · refine List.cons_eq_cons.mpr ⟨?_,?_⟩
    · show TimerManager.cell (TimerManager.store _ p _) p = _
      rw [cell_store,if_pos rfl]
      rfl
    · exact Shows.store (m := { m with inTimeout := some p, didReset := false, didCancel := false })
        hshows hpl

private theorem loop_refines (h : Mirrors m s l) (f : Frame) (r : Readings) :
    ∃ d' l', loop m f r = .ok (d',(s.loop f r).2) ∧ Refines d' (s.loop f r).1 l' := by
  unfold loop Schedule.loop
  cases l with
  | nil =>
    have hlist : m.timerList = none := h.linked.chain
    have htimers : s.timers = [] := by simpa [Shows] using h.timers.symm
    obtain ⟨d',hd',href⟩ := leave_refines h f r
    rw [hlist,htimers]
    exact ⟨d',[],hd',href⟩
  | cons p l =>
    have hlist : m.timerList = some p := h.linked.chain.1
    obtain ⟨t,us,hus,hp⟩ := head_of_shows h.timers
    rw [hlist,hus]
    simp only [load_of_read hp,bind,Except.bind]
    by_cases hdue : t.when ≤ f.now
    · have hdue' : t.unlink.when ≤ f.now := hdue
      rw [if_pos hdue,if_pos hdue']
      by_cases hfires : f.numFires < maxFiresPerTimeout
      · rw [if_pos hfires,if_pos hfires]
        exact ⟨_,p :: l,rfl,fire_refines h hus hp _ r⟩
      · rw [if_neg hfires,if_neg hfires]
        obtain ⟨d',hd',href⟩ := leave_refines h { f with numFires := f.numFires + 1 } r
        exact ⟨d',p :: l,hd',href⟩
    · have hdue' : ¬ t.unlink.when ≤ f.now := hdue
      rw [if_neg hdue,if_neg hdue']
      obtain ⟨d',hd',href⟩ := leave_refines h f r
      exact ⟨d',p :: l,hd',href⟩

private theorem loop_rest (m : TimerManager σ) (f : Frame) (r : Readings) :
    loop { m with inTimeout := none } f r = loop m f r := rfl

theorem Refines.timeout (h : Refines d s l) (r : Readings) :
    ∃ d' l', d.timeout r = .ok (d',(s.timeout r).2) ∧ Refines d' (s.timeout r).1 l' := by
  unfold Daemon.timeout Schedule.timeout
  cases hin : d.manager.inTimeout with
  | none =>
    rw [h.mirrors.idle hin]
    exact loop_refines h.mirrors ⟨r.period,0,0⟩ r
  | some q =>
    obtain ⟨u,-,hrun,-⟩ := h.mirrors.busy q hin
    rw [hrun]
    cases l with
    | nil =>
      have hlist : d.manager.timerList = none := h.mirrors.linked.chain
      have htimers : s.timers = [] := by simpa [Shows] using h.mirrors.timers.symm
      rw [hlist,htimers]
      exact ⟨d,[],rfl,h⟩
    | cons p l =>
      have hlist : d.manager.timerList = some p := h.mirrors.linked.chain.1
      obtain ⟨t,us,hus,hp⟩ := head_of_shows h.mirrors.timers
      rw [hlist,hus]
      simp only [load_of_read hp,bind,Except.bind]
      exact ⟨d,p :: l,rfl,h⟩

theorem Refines.handlerReturns (h : Refines d s l) (hf : d.frame.isSome = true) (r : Readings) :
    ∃ d' l', d.handlerReturns r = .ok (d',(s.handlerReturns r).2) ∧
      Refines d' (s.handlerReturns r).1 l' := by
  obtain ⟨f,hframe⟩ := Option.isSome_iff_exists.mp hf
  rw [h.framed] at hf
  obtain ⟨p,hin⟩ := Option.isSome_iff_exists.mp hf
  obtain ⟨t,-,hrun,-⟩ := h.mirrors.busy p hin
  obtain ⟨m',l',hm',hmir⟩ := h.mirrors.afterHandler hin hrun r
  unfold Daemon.handlerReturns Schedule.handlerReturns
  rw [hframe,hin,h.frame,hframe,hrun]
  simp only [hm',bind,Except.bind]
  obtain ⟨d',l'',hd',href⟩ := loop_refines hmir f r
  rw [loop_rest] at hd'
  exact ⟨d',l'',hd',href⟩

private theorem Refines.observeReset (h : Refines d s l) (id : Int) (when period : UInt32)
    (recomputeWhen : Bool) (newTimeslice : Option σ) (r : Readings) (repeats : Bool) :
    ∃ d' l', d.observeReset id repeats
        (d.manager.resetTimer id when period recomputeWhen newTimeslice r) =
        .ok (d',(s.reset id when period recomputeWhen newTimeslice r repeats).2) ∧
      Refines d' (s.reset id when period recomputeWhen newTimeslice r repeats).1 l' := by
  obtain ⟨rc,m',l',hm',hmir,hev,hin⟩ :=
    h.mirrors.resetTimer id when period recomputeWhen newTimeslice r repeats
  refine ⟨{ d with manager := m' },l',?_,h.with_manager hmir hin ?_⟩
  · rw [Daemon.observeReset,hm',hev]
    rfl
  · unfold Schedule.reset
    split
    · rfl
    · split <;> rfl

/-- Every possible call of the pointer program does what the schedule says, unless the counter of
ids overflows. -/
theorem Refines.step (h : Refines d s l) {c : Call σ} (hc : d.Possible c) :
    (∃ d' s' es l', d.step c = .ok (d',es) ∧ s.step c = some (s',es) ∧ Refines d' s' l') ∨
    d.step c = .error .idOverflow ∧ s.step c = none := by
  cases c with
  | newTimer a deltawhen period timeslice r =>
    by_cases hid : d.manager.timerIds = intMax
    · right
      constructor
      · rw [Daemon.step,TimerManager.newTimer,if_pos hid]
        rfl
      · rw [Schedule.step,h.mirrors.timerIds,if_pos hid]
    · left
      obtain ⟨m',l',hm',hmir,hin⟩ := h.mirrors.newTimer hc hid deltawhen period timeslice r
      refine ⟨_,_,[.created s.timerIds (decide (0 < period) || timeslice.isSome)],l',?_,?_,
        h.with_manager hmir hin rfl⟩
      · rw [Daemon.step,hm']
        rfl
      · rw [Schedule.step,h.mirrors.timerIds,if_neg hid]
        rfl
  | resetTimer id when period r =>
    obtain ⟨d',l',hd',href⟩ := h.observeReset id when period false none r (decide (0 < period))
    exact .inl ⟨d',_,_,l',hd',rfl,href⟩
  | resetTimerPeriod id period r =>
    obtain ⟨d',l',hd',href⟩ := h.observeReset id 0 period true none r (decide (0 < period))
    exact .inl ⟨d',_,_,l',hd',rfl,href⟩
  | resetTimerTimeslice id timeslice r =>
    obtain ⟨d',l',hd',href⟩ := h.observeReset id 0 0 false (some timeslice) r true
    exact .inl ⟨d',_,_,l',hd',rfl,href⟩
  | cancelTimer id =>
    obtain ⟨rc,m',l',hm',hmir,hev,hin⟩ := h.mirrors.cancelTimer id
    refine .inl ⟨{ d with manager := m' },(s.cancel id).1,(s.cancel id).2,l',?_,rfl,
      h.with_manager hmir hin ?_⟩
    · rw [Daemon.step,hm',hev]
      rfl
    · unfold Schedule.cancel
      split <;> rfl
  | cancelAllTimers =>
    obtain ⟨m',hm',hmir,hin⟩ := h.mirrors.cancelAllTimers
    refine .inl ⟨{ d with manager := m' },_,_,[],?_,rfl,h.with_manager hmir hin rfl⟩
    rw [Daemon.step,hm']
    rfl
  | timeout r =>
    obtain ⟨d',l',hd',href⟩ := h.timeout r
    exact .inl ⟨d',_,_,l',hd',rfl,href⟩
  | handlerReturns r =>
    obtain ⟨d',l',hd',href⟩ := h.handlerReturns hc r
    exact .inl ⟨d',_,_,l',hd',rfl,href⟩

end Daemon

end Condor.DaemonCore
