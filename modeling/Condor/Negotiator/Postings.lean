import Condor.Negotiator.Matches

/-!
# What RemoveMatch, AddMatch and UpdatePriorities write

Each is one transaction; what it leaves in the table is said once here.
-/

namespace Condor.Negotiator

open Condor.Lib Condor.Lib.RecordStore

private theorem there_table {l : AcctLog} {t : Table Key Attr Value} (hopen : l.Open t) {k : Key}
    (hsame : l.There k → lookup t k ≠ none) : l.There k → lookup l.table k ≠ none := by
  rw [hopen.2]
  exact hsame

structure Released (l l' : AcctLog) (r : CString) : Prop where
  get : ∀ r' a, l'.get (.resource r') a = if r' = r then none else l.get (.resource r') a
  there : ∀ r', l'.There (.resource r') ↔ r' ≠ r ∧ l.There (.resource r')

theorem Settled.there {l : AcctLog} (h : Settled l) (k : Key) :
    l.There k ↔ lookup l.table k ≠ none := by
  rw [Log.There,h.view]

def bothWritten (l : AcctLog) (customer group : CString) (cu gu : Usage) : AcctLog :=
  gu.write (cu.write l.beginTransaction customer) group

section BothWritten

variable {l : AcctLog} (h : Settled l) (customer group : CString) (cu gu : Usage)

include h

private theorem clean_bothWritten : (bothWritten l customer group cu gu).Clean := by
  apply Usage.clean_write
  apply Usage.clean_write
  exact Log.Clean.begin h.distinct

omit h in
theorem open_bothWritten : (bothWritten l customer group cu gu).Open l.table := by
  apply Usage.open_write
  apply Usage.open_write
  exact ⟨rfl,rfl⟩

private theorem viewGet_bothWritten (r : CString) (a : Attr) :
    (bothWritten l customer group cu gu).viewGet (.resource r) a = l.get (.resource r) a := by
  have h0 : l.beginTransaction.Clean := Log.Clean.begin h.distinct
  rw [bothWritten,Usage.viewGet_write (Usage.clean_write h0 customer cu),Usage.viewGet_write h0,
    if_neg (by simp),if_neg (by simp)]
  rfl

private theorem there_bothWritten (r : CString) :
    (bothWritten l customer group cu gu).There (.resource r) ↔ l.There (.resource r) := by
  have h0 : l.beginTransaction.Clean := Log.Clean.begin h.distinct
  rw [bothWritten,Usage.there_write (Usage.clean_write h0 customer cu),Usage.there_write h0]
  simp only [reduceCtorEq,false_or]
  rw [Log.There,Log.begin_view,h.there]

end BothWritten

theorem posted_released {l : AcctLog} (h : Settled l) (r customer group : CString) (cu gu : Usage) :
    Posted l ((bothWritten l customer group cu gu).deleteClassAd
        (.resource r)).commitTransaction customer group cu gu ∧
      Released l ((bothWritten l customer group cu gu).deleteClassAd
        (.resource r)).commitTransaction r := by
  have hclean := clean_bothWritten h customer group cu gu
  have hin : (bothWritten l customer group cu gu).There (.resource r) →
      lookup (bothWritten l customer group cu gu).table (.resource r) ≠ none := by
    apply there_table (open_bothWritten customer group cu gu)
    rw [there_bothWritten h,h.there]
    exact id
  refine ⟨posted_of h (settled_commit (hclean.deleteClassAd _)) fun x a => ?_,
    fun r' a => ?_,fun r' => ?_⟩
  · rw [Log.commit_get,Log.viewGet_deleteClassAd hclean hin,if_neg (by simp)]
    rfl
  · rw [Log.commit_get,Log.viewGet_deleteClassAd hclean hin,viewGet_bothWritten h]
    simp only [Key.resource.injEq]
  · rw [Log.commit_there,Log.there_deleteClassAd hclean hin,there_bothWritten h]
    simp only [ne_eq,Key.resource.injEq]

structure Taken (l l' : AcctLog) (r customer : CString) (weight : ℚ) (now : Int) : Prop where
  user : l'.get (.resource r) .remoteUser = some (.quoted customer)
  weight : l'.get (.resource r) .slotWeight = some (.real weight)
  start : l'.get (.resource r) .startTime = some (.int now)
  other : ∀ r' a, r' ≠ r → l'.get (.resource r') a = l.get (.resource r') a
  there : ∀ r', l'.There (.resource r') ↔ r' = r ∨ l.There (.resource r')

def resourceFields (customer : CString) (weight : ℚ) (now : Int) (limits : Option CString) :
    List (Attr × Value) :=
  [(.remoteUser,.quoted customer),(.slotWeight,.real weight),(.startTime,.int now)] ++
    limits.toList.map fun x => (.matchedConcurrencyLimits,.quoted x)

theorem setAll_resourceFields (l : AcctLog) (k : Key) (customer : CString) (weight : ℚ) (now : Int)
    (limits : Option CString) : l.setAll k (resourceFields customer weight now limits) =
      let l := l.setAttribute k .remoteUser (.quoted customer)
      let l := l.setAttribute k .slotWeight (.real weight)
      let l := l.setAttribute k .startTime (.int now)
      match limits with
      | none => l
      | some limits => l.setAttribute k .matchedConcurrencyLimits (.quoted limits) := by
  cases limits <;> rfl

theorem posted_taken {l : AcctLog} (h : Settled l) (r customer group : CString) (cu gu : Usage)
    (weight : ℚ) (now : Int) (limits : Option CString) :
    Posted l ((bothWritten l customer group cu gu).setAll (.resource r)
        (resourceFields customer weight now limits)).commitTransaction customer group cu gu ∧
      Taken l ((bothWritten l customer group cu gu).setAll (.resource r)
        (resourceFields customer weight now limits)).commitTransaction r customer weight now := by
  have hclean := clean_bothWritten h customer group cu gu
  have hget : ∀ k a, ((bothWritten l customer group cu gu).setAll (.resource r)
      (resourceFields customer weight now limits)).commitTransaction.get k a =
        if k = .resource r then (Log.lastWritten (resourceFields customer weight now limits) a).or
          ((bothWritten l customer group cu gu).viewGet k a)
        else (bothWritten l customer group cu gu).viewGet k a := by
    intro k a
    rw [Log.commit_get,Log.viewGet_setAll hclean]
  refine ⟨posted_of h (settled_commit (hclean.setAll _ _)) fun x a => ?_,
    ?_,?_,?_,fun r' a hr => ?_,fun r' => ?_⟩
  · rw [hget,if_neg (by simp)]
    rfl
  · rw [hget,if_pos rfl]
    cases limits <;> rfl
  · rw [hget,if_pos rfl]
    cases limits <;> rfl
  · rw [hget,if_pos rfl]
    cases limits <;> rfl
  · rw [hget,if_neg (by simpa using hr),viewGet_bothWritten h]
  · have hne : resourceFields customer weight now limits ≠ [] := List.cons_ne_nil _ _
    rw [Log.commit_there,Log.there_setAll hclean _ hne,there_bothWritten h]
    simp only [Key.resource.injEq]

def accumulatedUsage (l : AcctLog) (x : CString) : ℚ :=
  (getReal l (.customer x) .accumulatedUsage).getD 0

def weightedAccumulatedUsage (l : AcctLog) (x : CString) : ℚ :=
  (getReal l (.customer x) .weightedAccumulatedUsage).getD 0

def Paired (l : AcctLog) : Prop :=
  ∀ x, (getReal l (.customer x) .weightedAccumulatedUsage).isNone →
    (getReal l (.customer x) .accumulatedUsage).isNone

structure Billed (l l' : AcctLog) (x : CString) (timePassed : Int) : Prop where
  used : (Usage.read l' x).resourcesUsed = (Usage.read l x).resourcesUsed
  uncharged : (Usage.read l' x).unchargedTime = 0
  weightedUncharged : (Usage.read l' x).weightedUnchargedTime = 0
  accumulated : accumulatedUsage l' x = accumulatedUsage l x +
    ((Usage.read l x).resourcesUsed * timePassed + (Usage.read l x).unchargedTime)
  weighted : ((Usage.read l' x).weightedResourcesUsed = (Usage.read l x).weightedResourcesUsed ∧
      weightedAccumulatedUsage l' x = weightedAccumulatedUsage l x +
        ((Usage.read l x).weightedResourcesUsed * timePassed +
          (Usage.read l x).weightedUnchargedTime)) ∨
    ((Usage.read l x).resourcesUsed = 0 ∧ accumulatedUsage l' x = 0 ∧
      (Usage.read l' x).weightedResourcesUsed = 0 ∧ weightedAccumulatedUsage l' x = 0)

section Update

variable (ad : Rec Attr Value) (now timePassed : Int) (agingFactor : ℚ)

structure Account where
  usage : Usage
  accumulated : ℚ
  weightedAccumulated : ℚ

def Account.ofRec : Account where
  usage := {
    resourcesUsed := ((ad .resourcesUsed).bind Value.toInt?).getD 0
    weightedResourcesUsed := ((ad .weightedResourcesUsed).bind Value.toReal?).getD 0
    unchargedTime := ((ad .unchargedTime).bind Value.toInt?).getD 0
    weightedUnchargedTime := ((ad .weightedUnchargedTime).bind Value.toReal?).getD 0 }
  accumulated := ((ad .accumulatedUsage).bind Value.toReal?).getD 0
  weightedAccumulated := ((ad .weightedAccumulatedUsage).bind Value.toReal?).getD
    (((ad .accumulatedUsage).bind Value.toReal?).getD 0)

namespace Account

variable (a : Account)

def newAccumulated : ℚ :=
  a.accumulated + (a.usage.resourcesUsed * timePassed + a.usage.unchargedTime)

def newWeighted : ℚ :=
  a.weightedAccumulated +
    (a.usage.weightedResourcesUsed * timePassed + a.usage.weightedUnchargedTime)

end Account

structure Kept (l l' : AcctLog) (k : Key) (a : Account) : Prop where
  accumulated : l'.viewGet k .accumulatedUsage = some (.real (a.newAccumulated timePassed))
  weighted : l'.viewGet k .weightedAccumulatedUsage = some (.real (a.newWeighted timePassed))
  uncharged : l'.viewGet k .unchargedTime = some (.int 0)
  weightedUncharged : l'.viewGet k .weightedUnchargedTime = some (.real 0)
  used : l'.viewGet k .resourcesUsed = l.viewGet k .resourcesUsed
  weightedUsed : l'.viewGet k .weightedResourcesUsed = l.viewGet k .weightedResourcesUsed

def updateFields (priority accumulated weighted : ℚ) (begins recent : Bool) : List (Attr × Value) :=
  [(.priority,.real priority),(.accumulatedUsage,.real accumulated),
      (.weightedAccumulatedUsage,.real weighted)] ++
    (if begins then [(.beginUsageTime,.int now)] else []) ++
    (if recent then [(.lastUsageTime,.int now)] else []) ++
    [(.unchargedTime,.int 0),(.weightedUnchargedTime,.real 0)]

private theorem kept_setAll {l : AcctLog} (h : l.Clean) (k : Key) (a : Account) (priority : ℚ)
    (begins recent : Bool) :
    Kept timePassed l (l.setAll k (updateFields now priority (a.newAccumulated timePassed)
      (a.newWeighted timePassed) begins recent)) k a := by
  constructor
  all_goals
    rw [Log.viewGet_setAll h,if_pos rfl]
    cases begins <;> cases recent <;> rfl

def newPriority : ℚ :=
  let oldPriority := ((ad .priority).bind Value.toReal?).getD 0
  let oldPriority :=
    if oldPriority < Accountant.minPriority then Accountant.minPriority else oldPriority
  let usage := (Account.ofRec ad).usage
  oldPriority * agingFactor + (usage.weightedResourcesUsed +
    usage.weightedUnchargedTime / timePassed) * (1 - agingFactor)

def begins : Prop :=
  0 < (Account.ofRec ad).newAccumulated timePassed ∧
    ((ad .beginUsageTime).bind Value.toInt?).getD 0 = 0
deriving Decidable

def recent : Prop :=
  0 < ((Account.ofRec ad).usage.resourcesUsed +
    (Account.ofRec ad).usage.unchargedTime / timePassed : ℚ)
deriving Decidable

/-- The record goes when it holds nothing and nobody has set a priority factor. -/
def Drops : Prop :=
  newPriority ad timePassed agingFactor < Accountant.minPriority ∧
    (Account.ofRec ad).usage.resourcesUsed = 0 ∧
    (Account.ofRec ad).newAccumulated timePassed = 0 ∧
    ((ad .priorityFactor).bind Value.toReal?).isSome = false
deriving Decidable

def updated (l : AcctLog) (k : Key) : AcctLog :=
  l.setAll k (updateFields now (newPriority ad timePassed agingFactor)
    ((Account.ofRec ad).newAccumulated timePassed) ((Account.ofRec ad).newWeighted timePassed)
    (begins ad timePassed) (recent ad timePassed))

private theorem updateCustomer_eq (l : AcctLog) (k : Key) :
    Accountant.updateCustomer l k ad now timePassed agingFactor =
      if Drops ad timePassed agingFactor
      then (updated ad now timePassed agingFactor l k).deleteClassAd k
      else updated ad now timePassed agingFactor l k := by
  have hstages : Accountant.updateCustomer l k ad now timePassed agingFactor =
      (let l₁ := l.setAll k [(.priority,.real (newPriority ad timePassed agingFactor)),
        (.accumulatedUsage,.real ((Account.ofRec ad).newAccumulated timePassed)),
        (.weightedAccumulatedUsage,.real ((Account.ofRec ad).newWeighted timePassed))]
      let l₂ := if begins ad timePassed then l₁.setAll k [(.beginUsageTime,.int now)] else l₁
      let l₃ := if recent ad timePassed then l₂.setAll k [(.lastUsageTime,.int now)] else l₂
      let l4 := l₃.setAll k [(.unchargedTime,.int 0),(.weightedUnchargedTime,.real 0)]
      if Drops ad timePassed agingFactor then l4.deleteClassAd k else l4) := rfl
  rw [hstages,updated]
  by_cases hb : begins ad timePassed <;> by_cases hr : recent ad timePassed
  all_goals
    simp only [hb,hr,if_true,if_false,updateFields,decide_true,decide_false]
    rfl

def SameAt (l l' : AcctLog) (k : Key) : Prop :=
  (∀ a, l'.viewGet k a = l.viewGet k a) ∧ (l'.There k ↔ l.There k)

def UpdatedAt (l l' : AcctLog) (k : Key) : Prop :=
  if Drops ad timePassed agingFactor then ∀ a, l'.viewGet k a = none
  else Kept timePassed l l' k (Account.ofRec ad)

section One

variable {l : AcctLog} {t : Table Key Attr Value} (h : l.Clean) (ho : l.Open t) (k : Key)

include h

private theorem clean_updateCustomer :
    (Accountant.updateCustomer l k ad now timePassed agingFactor).Clean := by
  rw [updateCustomer_eq]
  split
  · exact (h.setAll k _).deleteClassAd k
  · exact h.setAll k _

omit h in
include ho in
private theorem open_updateCustomer :
    (Accountant.updateCustomer l k ad now timePassed agingFactor).Open t := by
  rw [updateCustomer_eq]
  split
  · exact (ho.setAll k _).deleteClassAd k
  · exact ho.setAll k _

private theorem clean_updated : (updated ad now timePassed agingFactor l k).Clean := h.setAll k _

private theorem sameAt_updated {k' : Key} (hk : k' ≠ k) :
    SameAt l (updated ad now timePassed agingFactor l k) k' := by
  have hne : updateFields now (newPriority ad timePassed agingFactor)
      ((Account.ofRec ad).newAccumulated timePassed) ((Account.ofRec ad).newWeighted timePassed)
      (begins ad timePassed) (recent ad timePassed) ≠ [] := List.cons_ne_nil _ _
  refine ⟨fun a => ?_,?_⟩
  · rw [updated,Log.viewGet_setAll h,if_neg hk]
  · rw [updated,Log.there_setAll h k hne]
    exact or_iff_right hk

variable (hk : lookup t k ≠ none)

include ho hk

omit h in
private theorem table_updated (_ : (updated ad now timePassed agingFactor l k).There k) :
    lookup (updated ad now timePassed agingFactor l k).table k ≠ none := by
  rw [updated,(ho.setAll k _).2]
  exact hk

private theorem sameAt_updateCustomer {k' : Key} (hk' : k' ≠ k) :
    SameAt l (Accountant.updateCustomer l k ad now timePassed agingFactor) k' := by
  have hsame := sameAt_updated ad now timePassed agingFactor h k hk'
  have hclean := clean_updated ad now timePassed agingFactor h k
  have hin := table_updated ad now timePassed agingFactor ho k hk
  rw [updateCustomer_eq]
  split
  · refine ⟨fun a => ?_,?_⟩
    · rw [Log.viewGet_deleteClassAd hclean hin,if_neg hk']
      exact hsame.1 a
    · rw [Log.there_deleteClassAd hclean hin]
      exact (and_iff_right hk').trans hsame.2
  · exact hsame

private theorem updatedAt_updateCustomer : UpdatedAt ad timePassed agingFactor l
    (Accountant.updateCustomer l k ad now timePassed agingFactor) k := by
  have hclean := clean_updated ad now timePassed agingFactor h k
  have hin := table_updated ad now timePassed agingFactor ho k hk
  rw [updateCustomer_eq,UpdatedAt]
  split
  · intro a
    rw [Log.viewGet_deleteClassAd hclean hin,if_pos rfl]
  · exact kept_setAll now timePassed h k _ _ _ _

end One

end Update

def updateEntry (now timePassed : Int) (agingFactor : ℚ) (l : AcctLog)
    (e : Key × Rec Attr Value) : AcctLog :=
  match e.1 with
  | .customer name => Accountant.updateCustomer l (.customer name) e.2 now timePassed agingFactor
  | _ => l

theorem UpdatedAt.congr {ad : Rec Attr Value} {timePassed : Int} {agingFactor : ℚ}
    {l₁ l₂ l1' l2' : AcctLog} {k : Key} (h : UpdatedAt ad timePassed agingFactor l₁ l₂ k)
    (h1 : SameAt l1' l₁ k) (h2 : SameAt l₂ l2' k) :
    UpdatedAt ad timePassed agingFactor l1' l2' k := by
  rw [UpdatedAt] at h ⊢
  split at h
  · next hd =>
    rw [if_pos hd]
    intro a
    rw [h2.1,h]
  · next hd =>
    rw [if_neg hd]
    exact ⟨by rw [h2.1,h.accumulated],by rw [h2.1,h.weighted],by rw [h2.1,h.uncharged],
      by rw [h2.1,h.weightedUncharged],by rw [h2.1,h.used,h1.1],by rw [h2.1,h.weightedUsed,h1.1]⟩

theorem SameAt.refl (l : AcctLog) (k : Key) : SameAt l l k := ⟨fun _ => rfl,Iff.rfl⟩

theorem SameAt.trans {l₁ l₂ l₃ : AcctLog} {k : Key} (h : SameAt l₁ l₂ k) (h' : SameAt l₂ l₃ k) :
    SameAt l₁ l₃ k :=
  ⟨fun a => (h'.1 a).trans (h.1 a),h'.2.trans h.2⟩

structure Swept (timePassed : Int) (agingFactor : ℚ) (t : Table Key Attr Value)
    (es : List (Key × Rec Attr Value)) (l l' : AcctLog) : Prop where
  clean : l'.Clean
  isOpen : l'.Open t
  same : ∀ k, (∀ x, k = .customer x → k ∉ es.map Prod.fst) → SameAt l l' k
  updated : ∀ x ad, (Key.customer x,ad) ∈ es →
    UpdatedAt ad timePassed agingFactor l l' (.customer x)

private theorem swept_foldl {t : Table Key Attr Value} (now timePassed : Int) (agingFactor : ℚ)
    (es : List (Key × Rec Attr Value)) (hnd : (es.map Prod.fst).Nodup)
    (hin : ∀ e ∈ es, lookup t e.1 ≠ none) {l : AcctLog} (h : l.Clean) (ho : l.Open t) :
    Swept timePassed agingFactor t es l (es.foldl (updateEntry now timePassed agingFactor) l) := by
  induction es generalizing l with
  | nil =>
    refine ⟨h,ho,fun k _ => SameAt.refl l k,fun x ad hmem => ?_⟩
    cases hmem
  | cons e es ih =>
    obtain ⟨he,hnd'⟩ := List.nodup_cons.mp hnd
    have hin' : ∀ e ∈ es, lookup t e.1 ≠ none := fun e' h' => hin e' (List.mem_cons_of_mem e h')
    have hke := hin e List.mem_cons_self
    obtain ⟨k,ad⟩ := e
    rw [List.foldl_cons]
    cases k with
    | customer x =>
      have hc := clean_updateCustomer ad now timePassed agingFactor h (.customer x)
      have hop := open_updateCustomer ad now timePassed agingFactor ho (.customer x)
      have hrest := ih hnd' hin' hc hop
      refine ⟨hrest.clean,hrest.isOpen,fun k hk => ?_,fun y ad' hmem => ?_⟩
      · have hne : k ≠ .customer x := by
          rintro rfl
          exact hk x rfl List.mem_cons_self
        refine (sameAt_updateCustomer ad now timePassed agingFactor h ho _ hke hne).trans
          (hrest.same k fun y hy hmem => ?_)
        exact hk y hy (List.mem_cons_of_mem _ hmem)
      · rcases List.mem_cons.mp hmem with heq | hmem
        · obtain ⟨hk,rfl⟩ := Prod.mk.inj heq
          obtain rfl := Key.customer.inj hk
          refine (updatedAt_updateCustomer ad' now timePassed agingFactor h ho _ hke).congr
            (SameAt.refl l _) (hrest.same _ fun z hz => ?_)
          exact he
        · have hne : Key.customer y ≠ .customer x := by
            intro heq
            have hfst : Key.customer y ∈ es.map Prod.fst := List.mem_map.mpr ⟨_,hmem,rfl⟩
            rw [heq] at hfst
            exact he hfst
          exact (hrest.updated y ad' hmem).congr
            (sameAt_updateCustomer ad now timePassed agingFactor h ho _ hke hne)
            (SameAt.refl _ _)
    | acct | resource =>
      have hrest := ih hnd' hin' h ho
      refine ⟨hrest.clean,hrest.isOpen,fun k hk => hrest.same k fun x hx hmem =>
        hk x hx (List.mem_cons_of_mem _ hmem),fun y ad' hmem => ?_⟩
      rcases List.mem_cons.mp hmem with heq | hmem
      · cases heq
      · exact hrest.updated y ad' hmem

theorem Settled.setAttribute {l : AcctLog} (h : Settled l) (k : Key) (a : Attr) (v : Value) :
    Settled (l.setAttribute k a v) := by
  have hidle : (l.setAttribute k a v).transaction = none := by
    rw [Log.setAttribute]
    split <;> simp [Log.append,h.idle]
  refine ⟨?_,hidle⟩
  have hclean := h.clean.setAttribute k a v
  have hview : (l.setAttribute k a v).view = (l.setAttribute k a v).table := by
    rw [Log.view,hidle]
    rfl
  rw [← hview]
  exact hclean.distinct

private theorem sameAt_setAttribute {l : AcctLog} (h : Settled l) {k k' : Key} (hk : k' ≠ k)
    (a : Attr)
    (v : Value) : SameAt l (l.setAttribute k a v) k' := by
  refine ⟨fun a' => ?_,?_⟩
  · rw [Log.viewGet_setAttribute h.clean,if_neg fun hka => hk hka.1]
  · rw [Log.there_setAttribute h.clean]
    exact or_iff_right hk

theorem SameAt.get {l l' : AcctLog} {k : Key} (h : SameAt l l' k) (hl : Settled l)
    (hl' : Settled l') (a : Attr) : l'.get k a = l.get k a := by
  rw [← hl'.viewGet,← hl.viewGet]
  exact h.1 a

private theorem get_of_lookup {l : AcctLog} {k : Key} {ad : Rec Attr Value}
    (h : lookup l.table k = some ad) (a : Attr) : l.get k a = ad a := by
  rw [Log.get,h]
  rfl

private theorem billed_of_updatedAt {l l' : AcctLog} (hl : Settled l) (hl' : Settled l')
    (hp : Paired l)
    {x : CString} {ad : Rec Attr Value} (had : ∀ a, l.get (.customer x) a = ad a)
    {timePassed : Int} {agingFactor : ℚ}
    (h : UpdatedAt ad timePassed agingFactor l l' (.customer x)) :
    Billed l l' x timePassed ∧ ((getReal l' (.customer x) .weightedAccumulatedUsage).isNone →
      (getReal l' (.customer x) .accumulatedUsage).isNone) := by
  have hread : Usage.read l x = (Account.ofRec ad).usage := by
    rw [Usage.read,getInt,getReal,getInt,getReal,had,had,had,had]
    rfl
  have hacc : accumulatedUsage l x = (Account.ofRec ad).accumulated := by
    rw [accumulatedUsage,getReal,had]
    rfl
  have hwacc : weightedAccumulatedUsage l x = (Account.ofRec ad).weightedAccumulated := by
    have hpx := hp x
    rw [getReal,getReal,had,had] at hpx
    rw [weightedAccumulatedUsage,getReal,had,Account.ofRec]
    cases hw : (ad .weightedAccumulatedUsage).bind Value.toReal? with
    | some w => rfl
    | none =>
      rw [hw] at hpx
      have hnone := Option.isNone_iff_eq_none.mp (hpx rfl)
      rw [hnone]
      rfl
  rw [UpdatedAt] at h
  split at h
  · next hd =>
    have hnone : ∀ a, l'.get (.customer x) a = none := fun a => (hl'.viewGet _ a).symm.trans (h a)
    have hread' : Usage.read l' x = ⟨0,0,0,0⟩ := by
      rw [Usage.read,getInt,getReal,getInt,getReal,hnone,hnone,hnone,hnone]
      rfl
    have hacc' : accumulatedUsage l' x = 0 := by
      rw [accumulatedUsage,getReal,hnone]
      rfl
    have hwacc' : weightedAccumulatedUsage l' x = 0 := by
      rw [weightedAccumulatedUsage,getReal,hnone]
      rfl
    refine ⟨⟨?_,by rw [hread'],by rw [hread'],?_,.inr ⟨?_,hacc',by rw [hread'],hwacc'⟩⟩,fun _ => ?_⟩
    · rw [hread',hread]
      exact hd.2.1.symm
    · rw [hacc',hacc,hread]
      exact hd.2.2.1.symm
    · rw [hread]
      exact hd.2.1
    · rw [getReal,hnone]
      rfl
  · have hget : ∀ a, l'.get (.customer x) a = l'.viewGet (.customer x) a :=
      fun a => (hl'.viewGet _ a).symm
    have hused : l'.get (.customer x) .resourcesUsed = ad .resourcesUsed := by
      rw [hget,h.used,hl.viewGet,had]
    have hwused : l'.get (.customer x) .weightedResourcesUsed = ad .weightedResourcesUsed := by
      rw [hget,h.weightedUsed,hl.viewGet,had]
    refine ⟨⟨?_,?_,?_,?_,.inl ⟨?_,?_⟩⟩,fun hn => ?_⟩
    · rw [hread,Usage.read,getInt,hused]
      rfl
    · rw [Usage.read,getInt,getInt,hget .unchargedTime,h.uncharged]
      rfl
    · rw [Usage.read,getReal,getReal,hget .weightedUnchargedTime,h.weightedUncharged]
      rfl
    · rw [accumulatedUsage,getReal,hget,h.accumulated,hacc,hread]
      rfl
    · rw [hread,Usage.read,getReal,hwused]
      rfl
    · rw [weightedAccumulatedUsage,getReal,hget,h.weighted,hwacc,hread]
      rfl
    · rw [getReal,hget,h.weighted] at hn
      cases hn

private theorem billed_of_absent {l l' : AcctLog} {x : CString} {timePassed : Int}
    (h : ∀ a, l.get (.customer x) a = none) (h' : ∀ a, l'.get (.customer x) a = none) :
    Billed l l' x timePassed := by
  have hread : ∀ l : AcctLog, (∀ a, l.get (.customer x) a = none) →
      Usage.read l x = ⟨0,0,0,0⟩ ∧ accumulatedUsage l x = 0 ∧ weightedAccumulatedUsage l x = 0 := by
    intro l h
    rw [Usage.read,getInt,getReal,getInt,getReal,accumulatedUsage,getReal,
      weightedAccumulatedUsage,getReal,h,h,h,h,h,h]
    exact ⟨rfl,rfl,rfl⟩
  obtain ⟨hr,ha,hw⟩ := hread l h
  obtain ⟨hr',ha',hw'⟩ := hread l' h'
  constructor <;> simp [hr,ha,hw,hr',ha',hw']

structure Updates (s s' : Accountant) (now : Int) : Prop where
  settled : Settled s'.log
  paired : Paired s'.log
  time : s'.lastUpdateTime = now
  groupMap : s'.groupMap = s.groupMap
  billed : ∀ x, Billed s.log s'.log x (now - s.lastUpdateTime)
  resources : ∀ r, SameAt s.log s'.log (.resource r)

theorem updates_updatePriorities {s : Accountant} (h : Settled s.log) (hp : Paired s.log)
    {now : Int} (hlt : s.lastUpdateTime < now) (agingFactor : ℚ) :
    Updates s (s.updatePriorities now agingFactor) now := by
  have h0 := h.setAttribute .acct .lastUpdateTime (.int now)
  have hsame0 : ∀ k, k ≠ .acct →
      SameAt s.log (s.log.setAttribute .acct .lastUpdateTime (.int now)) k :=
    fun k hk => sameAt_setAttribute h hk _ _
  have hs' : s.updatePriorities now agingFactor =
      { s with
        log := ((s.log.setAttribute .acct .lastUpdateTime (.int now)).table.foldl
          (updateEntry now (now - s.lastUpdateTime) agingFactor)
          (s.log.setAttribute .acct .lastUpdateTime (.int now)).beginTransaction).commitTransaction
        lastUpdateTime := now } := by
    rw [Accountant.updatePriorities]
    have h1 : ¬ now - s.lastUpdateTime = 0 := by omega
    have h2 : ¬ now - s.lastUpdateTime < 0 := by omega
    simp only [h1,h2,if_false]
    rfl
  rw [hs']
  generalize s.log.setAttribute .acct .lastUpdateTime (.int now) = l0 at h0 hsame0
  have hsw := swept_foldl now (now - s.lastUpdateTime) agingFactor l0.table h0.distinct
    (fun e he hnone => lookup_eq_none.mp hnone (List.mem_map_of_mem he))
    (Log.Clean.begin h0.distinct) ⟨rfl,rfl⟩
  generalize l0.table.foldl (updateEntry now (now - s.lastUpdateTime) agingFactor)
    l0.beginTransaction = l₁ at hsw
  have hbegin : ∀ k, SameAt l0 l0.beginTransaction k := by
    intro k
    refine ⟨fun a => ?_,?_⟩
    · rw [Log.viewGet,Log.begin_view,h0.viewGet]
      rfl
    · rw [Log.There,Log.begin_view,h0.there]
  have hcommit : ∀ k, SameAt l₁ l₁.commitTransaction k := fun k => ⟨fun _ => rfl,Iff.rfl⟩
  have hset : Settled l₁.commitTransaction := settled_commit hsw.clean
  have hall : ∀ x, Billed s.log l₁.commitTransaction x (now - s.lastUpdateTime) ∧
      ((getReal l₁.commitTransaction (.customer x) .weightedAccumulatedUsage).isNone →
        (getReal l₁.commitTransaction (.customer x) .accumulatedUsage).isNone) := by
    intro x
    have hsx := hsame0 (.customer x) (by simp)
    cases hl : lookup l0.table (.customer x) with
    | none =>
      have hnot := lookup_eq_none.mp hl
      have hget0 : ∀ a, l0.get (.customer x) a = none := fun a => by rw [Log.get,hl]; rfl
      have hget : ∀ a, s.log.get (.customer x) a = none := fun a =>
        (hsx.get h h0 a).symm.trans (hget0 a)
      have hto := ((hsx.trans (hbegin _)).trans (hsw.same (.customer x) fun _ _ => hnot)).trans
        (hcommit _)
      have hget' : ∀ a, l₁.commitTransaction.get (.customer x) a = none := fun a =>
        (hto.get h hset a).trans (hget a)
      refine ⟨billed_of_absent hget hget',fun _ => ?_⟩
      rw [getReal,hget']
      rfl
    | some ad =>
      have hmem : (Key.customer x,ad) ∈ l0.table := by
        rw [lookup,Option.map_eq_some_iff] at hl
        obtain ⟨e,he,rfl⟩ := hl
        have hkey : e.1 = .customer x := by simpa using List.find?_some he
        rw [← hkey]
        exact List.mem_of_find?_eq_some he
      have hup := (hsw.updated x ad hmem).congr (hsx.trans (hbegin _)) (hcommit _)
      refine billed_of_updatedAt h hset hp (fun a => ?_) hup
      rw [← hsx.get h h0 a]
      exact get_of_lookup hl a
  refine ⟨hset,fun x => (hall x).2,rfl,rfl,fun x => (hall x).1,fun r => ?_⟩
  exact (((hsame0 _ (by simp)).trans (hbegin _)).trans
    (hsw.same (.resource r) fun x hx => by cases hx)).trans (hcommit _)

end Condor.Negotiator
