import Mathlib.Tactic.Abel
import Condor.Negotiator.Accountant

/-!
# Matches and the records kept of them

A match begins when a customer is given a resource that it does not hold, and ends when the resource
is taken away or given to another customer.
-/

namespace Condor.Negotiator

open Condor.Lib Condor.Lib.RecordStore List

structure Match where
  resource : CString
  customer : CString
  weight : ℚ
  start : Int
  stop : Option Int
  deriving DecidableEq

namespace Match

def Concerns (cfg : Config) (x : CString) (m : Match) : Prop :=
  m.customer = x ∨ assignedGroup cfg.root m.customer = x
deriving Decidable

def Holds (r : CString) (m : Match) : Prop := m.resource = r ∧ m.stop = none
deriving Decidable

def close (r : CString) (now : Int) (m : Match) : Match :=
  if m.Holds r then { m with stop := some now } else m

end Match

def closeMatch (ms : List Match) (r : CString) (now : Int) : List Match :=
  ms.map (Match.close r now)

def openMatch (ms : List Match) (customer r : CString) (weight : ℚ) (now : Int) : List Match :=
  if ∃ m ∈ ms, m.Holds r ∧ m.customer = customer then ms
  else closeMatch ms r now ++ [⟨r,customer,weight,now,none⟩]

section Sums

variable {M : Type} [AddCommGroup M]

def total (ms : List Match) (f : Match → M) : M := (ms.map f).sum

theorem total_append (ms ms' : List Match) (f : Match → M) :
    total (ms ++ ms') f = total ms f + total ms' f := by
  rw [total,map_append,sum_append]
  rfl

theorem total_cons (m : Match) (ms : List Match) (f : Match → M) :
    total (m :: ms) f = f m + total ms f := by
  rw [total,map_cons,sum_cons]
  rfl

theorem total_singleton (m : Match) (f : Match → M) : total [m] f = f m := by
  rw [total_cons]
  exact add_zero _

variable {ms : List Match}

theorem closeMatch_of_free {r : CString} (h : ∀ m ∈ ms, ¬ m.Holds r) (now : Int) :
    closeMatch ms r now = ms := by
  rw [closeMatch]
  conv_rhs => rw [← map_id ms]
  refine map_congr_left fun m hm => ?_
  rw [Match.close,if_neg (h m hm)]
  rfl

def OneHolder (ms : List Match) : Prop :=
  ms.Pairwise fun m m' => ∀ r, m.Holds r → ¬ m'.Holds r

theorem OneHolder.split {m : Match} {r : CString} (h : OneHolder ms)
    (hm : m ∈ ms) (hr : m.Holds r) : ∃ pre post, ms = pre ++ m :: post ∧
      ∀ now, closeMatch ms r now = pre ++ { m with stop := some now } :: post := by
  obtain ⟨pre,post,rfl⟩ := append_of_mem hm
  obtain ⟨-,hpost,hpre⟩ := List.pairwise_append.mp h
  have hfree : ∀ x ∈ pre, ¬ x.Holds r := fun x hx hxr => hpre x hx m mem_cons_self r hxr hr
  have hfree' : ∀ x ∈ post, ¬ x.Holds r := fun x hx hxr =>
    (List.pairwise_cons.mp hpost).1 x hx r hr hxr
  refine ⟨pre,post,rfl,fun now => ?_⟩
  have h1 := closeMatch_of_free hfree now
  have h2 := closeMatch_of_free hfree' now
  rw [closeMatch] at h1 h2 ⊢
  rw [map_append,map_cons,h1,h2,Match.close,if_pos hr]

theorem total_close {m : Match} {r : CString} (h : OneHolder ms) (hm : m ∈ ms)
    (hr : m.Holds r) (now : Int) (f : Match → M) :
    total (closeMatch ms r now) f = total ms f - f m + f { m with stop := some now } := by
  obtain ⟨pre,post,rfl,hclose⟩ := h.split hm hr
  rw [hclose,total_append,total_append,total_cons,total_cons]
  abel

theorem total_congr {f g : Match → M} (h : ∀ m ∈ ms, f m = g m) :
    total ms f = total ms g := by
  rw [total,total,map_congr_left h]

end Sums

theorem mem_closeMatch {ms : List Match} {r : CString} {now : Int} {m : Match}
    (h : m ∈ closeMatch ms r now) : ∃ m' ∈ ms, m = m'.close r now := by
  obtain ⟨m',hm',rfl⟩ := List.mem_map.mp h
  exact ⟨m',hm',rfl⟩

theorem close_customer (m : Match) (r : CString) (now : Int) :
    (m.close r now).customer = m.customer := by
  rw [Match.close]
  split <;> rfl

theorem close_weight (m : Match) (r : CString) (now : Int) : (m.close r now).weight = m.weight := by
  rw [Match.close]
  split <;> rfl

theorem close_start (m : Match) (r : CString) (now : Int) : (m.close r now).start = m.start := by
  rw [Match.close]
  split <;> rfl

theorem holds_close {m : Match} {r r' : CString} {now : Int} (h : (m.close r now).Holds r') :
    r' ≠ r ∧ m.Holds r' ∧ m.close r now = m := by
  by_cases hm : m.Holds r
  · rw [Match.close,if_pos hm] at h
    cases h.2
  · rw [Match.close,if_neg hm] at h ⊢
    refine ⟨?_,h,rfl⟩
    rintro rfl
    exact hm h

theorem OneHolder.close {ms : List Match} (h : OneHolder ms) (r : CString) (now : Int) :
    OneHolder (closeMatch ms r now) := by
  refine List.Pairwise.map _ (fun a b hab r' ha hb => ?_) h
  exact hab r' (holds_close ha).2.1 (holds_close hb).2.1

structure Settled (l : AcctLog) : Prop where
  distinct : Distinct l.table
  idle : l.transaction = none

variable {l : AcctLog}

theorem Settled.view (h : Settled l) : l.view = l.table := by
  rw [Log.view,h.idle]
  rfl

theorem Settled.clean (h : Settled l) : l.Clean := by
  refine ⟨by rw [h.view]; exact h.distinct,fun k => ?_⟩
  rw [h.view,Log.adExists,h.idle]
  rfl

theorem Settled.viewGet (h : Settled l) (k : Key) (a : Attr) :
    l.viewGet k a = l.get k a := by
  rw [Log.viewGet,h.view]
  rfl

theorem settled_commit (h : l.Clean) : Settled l.commitTransaction :=
  ⟨h.distinct,rfl⟩

namespace Usage

def value (u : Usage) : Attr → Option Value
  | .resourcesUsed => some (.int u.resourcesUsed)
  | .weightedResourcesUsed => some (.real u.weightedResourcesUsed)
  | .unchargedTime => some (.int u.unchargedTime)
  | .weightedUnchargedTime => some (.real u.weightedUnchargedTime)
  | _ => none

private def fields (u : Usage) : List (Attr × Value) :=
  [(.resourcesUsed,.int u.resourcesUsed),(.weightedResourcesUsed,.real u.weightedResourcesUsed),
    (.unchargedTime,.int u.unchargedTime),(.weightedUnchargedTime,.real u.weightedUnchargedTime)]

private theorem write_eq (l : AcctLog) (name : CString) (u : Usage) :
    u.write l name = l.setAll (.customer name) u.fields := rfl

theorem clean_write (h : l.Clean) (name : CString) (u : Usage) :
    (u.write l name).Clean :=
  h.setAll _ u.fields

theorem open_write {t : Table Key Attr Value} (h : l.Open t) (name : CString)
    (u : Usage) : (u.write l name).Open t :=
  h.setAll _ u.fields

theorem viewGet_write (h : l.Clean) (name : CString) (u : Usage) (k : Key)
    (a : Attr) : (u.write l name).viewGet k a =
      if k = .customer name then (u.value a).or (l.viewGet k a) else l.viewGet k a := by
  have hlast : Log.lastWritten u.fields a = u.value a := by cases a <;> rfl
  rw [write_eq,Log.viewGet_setAll h,hlast]

theorem there_write (h : l.Clean) (name : CString) (u : Usage) (k : Key) :
    (u.write l name).There k ↔ k = .customer name ∨ l.There k := by
  rw [write_eq]
  exact Log.there_setAll h _ (cons_ne_nil _ _) k

end Usage

structure Posted (l l' : AcctLog) (customer group : CString) (cu gu : Usage) : Prop where
  settled : Settled l'
  other : ∀ x a, a ≠ .resourcesUsed → a ≠ .weightedResourcesUsed → a ≠ .unchargedTime →
    a ≠ .weightedUnchargedTime → l'.get (.customer x) a = l.get (.customer x) a
  usage : ∀ x, Usage.read l' x =
    if x = group then gu else if x = customer then cu else Usage.read l x

private theorem read_of_get {x : CString} {u : Usage}
    (h : ∀ a v, u.value a = some v → l.get (.customer x) a = some v) : Usage.read l x = u := by
  rw [Usage.read,getInt,getReal,getInt,getReal,h .resourcesUsed _ rfl,
    h .weightedResourcesUsed _ rfl,h .unchargedTime _ rfl,h .weightedUnchargedTime _ rfl]
  rfl

private theorem read_congr {l l' : AcctLog} {x : CString}
    (h : ∀ a, l'.get (.customer x) a = l.get (.customer x) a) :
    Usage.read l' x = Usage.read l x := by
  rw [Usage.read,Usage.read,getInt,getReal,getInt,getReal,h,h,h,h]
  rfl

private theorem value_none {u : Usage} {a : Attr} (h1 : a ≠ .resourcesUsed)
    (h2 : a ≠ .weightedResourcesUsed) (h3 : a ≠ .unchargedTime) (h4 : a ≠ .weightedUnchargedTime) :
    u.value a = none := by
  cases a <;> simp_all [Usage.value]

theorem posted_of {l l' : AcctLog} (h : Settled l) {customer group : CString}
    {cu gu : Usage} (hset : Settled l') (hget : ∀ x a, l'.get (.customer x) a =
      (gu.write (cu.write l.beginTransaction customer) group).viewGet (.customer x) a) :
    Posted l l' customer group cu gu := by
  have h0 : l.beginTransaction.Clean := Log.Clean.begin h.distinct
  have hview : ∀ x a, l'.get (.customer x) a =
      if x = group then (gu.value a).or (if x = customer
        then (cu.value a).or (l.get (.customer x) a)
        else l.get (.customer x) a)
      else if x = customer then (cu.value a).or (l.get (.customer x) a)
      else l.get (.customer x) a := by
    intro x a
    rw [hget,Usage.viewGet_write (Usage.clean_write h0 customer cu),Usage.viewGet_write h0]
    simp only [Key.customer.injEq]
    rfl
  refine ⟨hset,fun x a h1 h2 h3 h4 => ?_,fun x => ?_⟩
  · rw [hview,value_none h1 h2 h3 h4,value_none h1 h2 h3 h4]
    simp
  · by_cases hg : x = group
    · rw [if_pos hg]
      refine read_of_get fun a v hv => ?_
      rw [hview,if_pos hg,hv]
      rfl
    · rw [if_neg hg]
      by_cases hc : x = customer
      · rw [if_pos hc]
        refine read_of_get fun a v hv => ?_
        rw [hview,if_neg hg,if_pos hc,hv]
        rfl
      · rw [if_neg hc]
        refine read_congr fun a => ?_
        rw [hview,if_neg hg,if_neg hc]

end Condor.Negotiator
