import Mathlib.Data.List.ReduceOption
import Condor.Procd.Gathering

/-!
# What the trackers point at

Each tracker has a list of mappings to families. Unregistering a family takes one mapping of it out
of each tracker.
-/

namespace Condor.Procd

open Condor.Lib List

private theorem map_removeMapping {α : Type} (g : Nat) (es : List (α × Nat)) :
    (removeMapping g es).map Prod.snd = (es.map Prod.snd).erase g := by
  induction es with
  | nil => rfl
  | cons e es ih =>
    by_cases he : e.2 = g
    · simp [removeMapping,he]
    · rw [removeMapping,if_neg he,map_cons,map_cons,ih,
        erase_cons_tail (by simpa using he)]

theorem mem_of_findFamily {α : Type} {test : α → Bool} {es : List (α × Nat)} {g : Nat}
    (h : findFamily test es = some g) : g ∈ es.map Prod.snd := by
  unfold findFamily at h
  obtain ⟨e,he,rfl⟩ := Option.map_eq_some_iff.mp h
  exact mem_map_of_mem (mem_of_find?_eq_some he)

private theorem reduceOption_set_some {gs : List (Option Nat)} {i g : Nat}
    (h : gs[i]? = some none) :
    (gs.set i (some g)).reduceOption.Perm (g :: gs.reduceOption) := by
  induction gs generalizing i with
  | nil => simp at h
  | cons a gs ih =>
    cases i with
    | zero =>
      obtain rfl : a = none := by simpa using h
      simp
    | succ i =>
      have hset := ih (i := i) (by simpa using h)
      cases a with
      | none => simpa using hset
      | some b =>
        simp only [set_cons_succ,reduceOption_cons_of_some]
        exact (hset.cons b).trans (List.Perm.swap g b _)

namespace GIDPool

variable {pool pool' : GIDPool} {g : Nat} {gid gid' : BitVec 32}

private theorem reduceOption_free (pool : GIDPool) (g : Nat) :
    (pool.free g).map.reduceOption = pool.map.reduceOption.erase g := by
  have hmap : (pool.free g).map =
      (pool.map.findIdx? (· = some g)).elim pool.map (pool.map.set · none) := by
    unfold free
    split <;> simp [*]
  rw [hmap]
  generalize pool.map = gs
  induction gs with
  | nil => rfl
  | cons a gs ih =>
    cases a with
    | none =>
      simp only [findIdx?_cons,reduceCtorEq,decide_false,Bool.false_eq_true,if_false,
        reduceOption_cons_of_none]
      rw [← ih]
      cases gs.findIdx? (· = some g) <;> simp
    | some b =>
      by_cases hb : b = g
      · simp [findIdx?_cons,hb]
      · simp only [findIdx?_cons,Option.some.injEq,hb,decide_false,Bool.false_eq_true,if_false,
          reduceOption_cons_of_some]
        rw [erase_cons_tail (by simpa using hb),← ih]
        cases gs.findIdx? (· = some g) <;> simp

theorem mem_of_getFamily (h : pool.getFamily gid = some g) : g ∈ pool.map.reduceOption := by
  unfold getFamily at h
  split at h
  · simp at h
  · rw [reduceOption_mem_iff]
    exact mem_of_getElem? (Option.join_eq_some_iff.mp h)

theorem addMapping_perm (h : pool.addMapping g gid = some (pool',gid')) :
    pool'.map.reduceOption.Perm (g :: pool.map.reduceOption) := by
  unfold addMapping at h
  split at h
  · unfold allocate at h
    split at h
    · simp at h
    · rename_i i hi
      obtain rfl := (Prod.mk.inj (Option.some.inj h)).1
      obtain ⟨hlt,hp,-⟩ := List.findIdx?_eq_some_iff_getElem.mp hi
      apply reduceOption_set_some
      rw [getElem?_eq_getElem hlt]
      simpa using hp
  · obtain ⟨pool1,h1,h2⟩ := Option.map_eq_some_iff.mp h
    obtain rfl := (Prod.mk.inj h2).1
    unfold associate at h1
    split at h1
    · simp at h1
    · split at h1
      · rename_i hi
        obtain rfl := Option.some.inj h1
        exact reduceOption_set_some hi
      · simp at h1

end GIDPool

namespace Monitor

inductive Tracker
  | pid
  | login
  | environment
  | group
  deriving DecidableEq

def pointers (m : Monitor) : Tracker → List Nat
  | .pid => m.pidTracker.map Prod.snd
  | .login => m.loginTracker.map Prod.snd
  | .environment => m.environmentTracker.map Prod.snd
  | .group => m.groupTracker.elim [] fun pool => pool.map.reduceOption

structure Tracked (m : Monitor) (F : Forest Nat) : Prop where
  valid : ∀ t, ∀ g ∈ m.pointers t, g ∈ F.ids
  nodup : (m.pointers .pid).Nodup

variable {m m' m0 : Monitor} {F : Forest Nat} {L L0 : Nat → List Nat} {ps rest : List ProcInfo}

theorem SameTree.pointers (h : SameTree m m') (t : Tracker) : m'.pointers t = m.pointers t := by
  cases t with
  | pid => simp only [Monitor.pointers,h.pidTracker]
  | login => simp only [Monitor.pointers,h.loginTracker]
  | environment => simp only [Monitor.pointers,h.environmentTracker]
  | group => simp only [Monitor.pointers,h.groupTracker]

theorem Tracked.congr (h : Tracked m F) (hp : ∀ t, m'.pointers t = m.pointers t) :
    Tracked m' F where
  valid t g hg := h.valid t g (hp t ▸ hg)
  nodup := by
    rw [hp]
    exact h.nodup

theorem Unregistered.pointers {g p : Nat} (h : Unregistered m m' F L g p) (t : Tracker) :
    m'.pointers t = (m.pointers t).erase g := by
  cases t with
  | pid => simp only [Monitor.pointers,h.pidTracker,map_removeMapping]
  | login => simp only [Monitor.pointers,h.loginTracker,map_removeMapping]
  | environment => simp only [Monitor.pointers,h.environmentTracker,map_removeMapping]
  | group =>
    simp only [Monitor.pointers,h.groupTracker]
    cases m.groupTracker with
    | none => rfl
    | some pool => exact pool.reduceOption_free g

theorem Tracked.unregistered {g p : Nat} (ht : Tracked m F) (h : Unregistered m m' F L g p)
    (hnd : F.ids.Nodup) (hone : ∀ t, (m.pointers t).count g ≤ 1) : Tracked m' (F.erase g) where
  valid t z hz := by
    rw [h.pointers t] at hz
    rw [mem_erase_ids hnd]
    refine ⟨?_,ht.valid t z (mem_of_mem_erase hz)⟩
    rintro rfl
    have hpos := List.count_pos_iff.mpr hz
    have := hone t
    rw [count_erase_self] at hpos
    omega
  nodup := by
    rw [h.pointers]
    exact ht.nodup.erase g

theorem sound_findByPid (h : Tracked m0 F) : Sound ps rest F m0 L0 findByPid := by
  intro m L pi g hgath hfind
  apply h.valid .pid
  rw [← hgath.same.pointers]
  exact mem_of_findFamily hfind

theorem sound_findByLogin (h : Tracked m0 F) : Sound ps rest F m0 L0 findByLogin := by
  intro m L pi g hgath hfind
  apply h.valid .login
  rw [← hgath.same.pointers]
  exact mem_of_findFamily hfind

theorem sound_findByEnvironment (h : Tracked m0 F) : Sound ps rest F m0 L0 findByEnvironment := by
  intro m L pi g hgath hfind
  apply h.valid .environment
  rw [← hgath.same.pointers]
  exact mem_of_findFamily hfind

theorem sound_findByGroup (h : Tracked m0 F) : Sound ps rest F m0 L0 findByGroup := by
  intro m L pi g hgath hfind
  apply h.valid .group
  rw [← hgath.same.pointers]
  unfold findByGroup at hfind
  cases hpool : m.groupTracker with
  | none => simp [hpool] at hfind
  | some pool =>
    simp only [hpool] at hfind
    obtain ⟨gid,-,hgid⟩ := exists_of_findSome?_eq_some hfind
    simpa [pointers,hpool] using GIDPool.mem_of_getFamily hgid

end Monitor

end Condor.Procd
