import Condor.ClassAdLog.PendingAds

/-!
# The attributes of a transaction

`AddAttrsFromTransaction` collects what the active transaction sets on an ad into an overlay, an ad
of its own, and merges the overlay into a copy of the committed ad.
-/

namespace Condor

open Lib List Option

namespace HashTable

variable {α β : Type} [DecidableEq α]

omit [DecidableEq α] in
theorem tableSize_link (t : HashTable α β) (k : α) (v : β) :
    (t.link k v).tableSize = t.tableSize := by
  simp only [tableSize,link,Buckets.push,Buckets.length_rewrite]

omit [DecidableEq α] in
theorem tableSize_resizeHashTable (t : HashTable α β) :
    t.tableSize < t.resizeHashTable.tableSize := by
  have hn : 0 < (t.tableSize + 1) * 2 - 1 := by omega
  have hlen := (Buckets.rehash_spec t.hash t.ht hn).2.1
  have hpos := t.nonempty
  rw [tableSize,resizeHashTable,tableSize]
  dsimp only
  rw [hlen,tableSize]
  omega

private theorem tableSize_adjust (t : HashTable α β) (k : α) (g : β → β) :
    (t.adjust k g).tableSize = t.tableSize := by
  simp only [tableSize,adjust,Buckets.length_rewrite]

private theorem tableSize_remove (t : HashTable α β) (k : α) :
    (t.remove k).tableSize = t.tableSize := by
  simp only [tableSize,remove,Buckets.length_rewrite]

omit [DecidableEq α] in
theorem tableSize_addItem (t : HashTable α β) (k : α) (v : β) :
    t.tableSize ≤ (t.addItem k v).tableSize := by
  have hlink := t.tableSize_link k v
  rw [addItem]
  split
  · have hgrow := (t.link k v).tableSize_resizeHashTable
    omega
  · omega

private theorem tableSize_insert (t : HashTable α β) (k : α) (v : β) :
    t.tableSize ≤ (t.insert k v).1.tableSize := by
  have hadd := t.tableSize_addItem k v
  have hadjust := t.tableSize_adjust k fun _ => v
  unfold insert
  dsimp only
  split
  · split
    · exact Nat.le_refl _
    · exact hadd
  · split
    · exact hadjust.ge
    · exact hadd
  · exact hadd

private theorem stack_insert_sized {t : HashTable α β} {k k' : α} (hne : k' ≠ k) {v : β}
    (hsize : (t.insert k v).1.tableSize = t.tableSize) :
    (t.insert k v).1.stack k' = t.stack k' := by
  have hadd (h : (t.addItem k v).tableSize = t.tableSize) :
      (t.addItem k v).stack k' = t.stack k' := by
    rw [addItem] at h ⊢
    split at h
    · next hfull =>
      have hgrow := (t.link k v).tableSize_resizeHashTable
      have hlink := t.tableSize_link k v
      omega
    · next hfull =>
      rw [if_neg hfull,stack_link,if_neg hne]
  have hadjust : (t.adjust k fun _ => v).stack k' = t.stack k' := by
    rw [stack_adjust,if_neg hne]
  unfold insert at hsize ⊢
  dsimp only at hsize ⊢
  split at hsize
  · split at hsize
    · next hfound => rw [if_pos hfound]
    · next hfound =>
      rw [if_neg hfound]
      exact hadd hsize
  · split at hsize
    · next hfound =>
      rw [if_pos hfound]
      exact hadjust
    · next hfound =>
      rw [if_neg hfound]
      exact hadd hsize
  · exact hadd hsize

end HashTable

namespace ClassAdLog

variable {Expr : Type} (L : ClassAdLanguage Expr)

/-- `MergeClassAds`. -/
def mergeClassAds (mergeInto mergeFrom : ClassAd Expr) (mergeConflicts : Bool) : ClassAd Expr :=
  (L.iterate mergeFrom.attrList).foldl
    (fun ad a => if mergeConflicts || (ad.lookup a.1).isNone then ad.insert a.1 a.2 else ad)
    mergeInto

/-- `AddAttrsFromTransaction`: the result and what the ad of the caller has become. -/
def addAttrsFromTransaction (s : ClassAdLog Expr) (key : Option CString) (ad : ClassAd Expr) :
    Bool × ClassAd Expr :=
  match key with
  | none => (false,ad)
  | some key =>
    match s.activeTransaction with
    | none => (false,ad)
    | some _ =>
      match (s.examineTransaction L key none).2.2 with
      | some attrsFromTransaction => (true,mergeClassAds L ad attrsFromTransaction true)
      | none => (false,ad)

def isSet : LogRecord → Bool
  | .setAttribute .. => true
  | _ => false

def writtenBy (name : CString) : LogRecord → Option (Option Expr)
  | .setAttribute _ lname value _ =>
    if lname ≠ [] ∧ strcaseeq lname name = true then
      (L.parseExpression value.val).map some
    else none
  | .deleteAttribute _ lname => if strcaseeq lname name then some none else none
  | _ => none

def lastWrite (name : CString) : List LogRecord → Option (Option Expr)
  | [] => none
  | r :: rs => (lastWrite name rs).or (writtenBy L name r)

def sinceSet (rs : List LogRecord) : List LogRecord := rs.dropWhile fun r => !isSet r

def bornWith (name : CString) (rs : List LogRecord) : Option Expr :=
  if sinceSet rs ≠ [] ∧ lastWrite L name (sinceSet rs) = none then (ClassAd.new L).lookup name
  else none

def OverlayRight (ad : ClassAd Expr) (rs : List LogRecord) (name : CString) : Prop :=
  match lastWrite L name rs with
  | some (some _) => True
  | some none => ad.lookup name = none ∧ bornWith L name rs = none
  | none => bornWith L name rs = none ∨ bornWith L name rs = ad.lookup name

def Changes (ad : ClassAd Expr) (rs : List LogRecord) : Prop :=
  ∃ name e, lastWrite L name rs = some e ∧ ad.lookup name ≠ e

private theorem ClassAd.lookup_assignExpr (ad : ClassAd Expr) (lname name v : CString) :
    (ad.assignExpr L lname v).lookup name =
      (if lname ≠ [] ∧ strcaseeq lname name = true then
        (L.parseExpression v).map some else none).getD (ad.lookup name) := by
  rw [ClassAd.assignExpr]
  cases hparse : L.parseExpression v with
  | none =>
    dsimp only
    split <;> rfl
  | some e =>
    dsimp only
    by_cases hname : lname = []
    · rw [ClassAd.insert,dif_pos hname,if_neg fun h => h.1 hname]
      rfl
    · rw [ClassAd.lookup_insert _ hname]
      by_cases heq : strcaseeq lname name = true
      · rw [if_pos heq,if_pos ⟨hname,heq⟩]
        rfl
      · rw [if_neg heq,if_neg fun h => heq h.2]
        rfl

private theorem lookup_playAd {r : LogRecord} (hr : isMake r = false) (ad : ClassAd Expr) :
    ∃ ad', playAd L (some ad) r = some ad' ∧
      ∀ name, ad'.lookup name = (writtenBy L name r).getD (ad.lookup name) := by
  cases r with
  | newClassAd | destroyClassAd => simp [isMake] at hr
  | setAttribute key lname value dirty =>
    exact ⟨_,rfl,fun name => ClassAd.lookup_assignExpr L ad lname name value.val⟩
  | deleteAttribute key lname =>
    refine ⟨_,rfl,fun name => ?_⟩
    rw [ClassAd.lookup_delete,writtenBy]
    split <;> rfl
  | beginTransaction | endTransaction | historicalSequenceNumber =>
    exact ⟨ad,rfl,fun name => rfl⟩

variable {rs : List LogRecord}

/-- Records that neither make nor destroy the ad leave each attribute at what was last written
to it. -/
theorem lookup_playAds (hrs : ∀ r ∈ rs, isMake r = false) (ad : ClassAd Expr) :
    ∃ ad', rs.foldl (playAd L) (some ad) = some ad' ∧
      ∀ name, ad'.lookup name = (lastWrite L name rs).getD (ad.lookup name) := by
  induction rs generalizing ad with
  | nil => exact ⟨ad,rfl,fun name => rfl⟩
  | cons r rs ih =>
    obtain ⟨ad1,hplay,hlook⟩ := lookup_playAd L (hrs r (by simp)) ad
    obtain ⟨ad2,hfold,hrest⟩ := ih (fun x hx => hrs x (by simp [hx])) ad1
    refine ⟨ad2,by rw [foldl_cons,hplay,hfold],fun name => ?_⟩
    rw [hrest,hlook,lastWrite]
    cases lastWrite L name rs <;> rfl

private theorem examineEntry_some {r : LogRecord} (hr : isMake r = false) {x : Exam Expr}
    {ad : ClassAd Expr} (hx : x.ad = some ad) :
    (examineEntry L none x r).ad = playAd L (some ad) r := by
  cases r with
  | newClassAd | destroyClassAd => simp [isMake] at hr
  | setAttribute | deleteAttribute => simp [examineEntry,playAd,hx]
  | beginTransaction | endTransaction | historicalSequenceNumber => exact hx

private theorem overlay_some (hrs : ∀ r ∈ rs, isMake r = false) {x : Exam Expr}
    {ad : ClassAd Expr} (hx : x.ad = some ad) :
    (rs.foldl (examineEntry L none) x).ad = rs.foldl (playAd L) (some ad) := by
  induction rs generalizing x ad with
  | nil => exact hx
  | cons r rs ih =>
    have hr := hrs r (by simp)
    obtain ⟨ad1,hplay,-⟩ := lookup_playAd L hr ad
    rw [foldl_cons,foldl_cons,hplay]
    exact ih (fun y hy => hrs y (by simp [hy])) ((examineEntry_some L hr hx).trans hplay)

private theorem overlay_none (hrs : ∀ r ∈ rs, isMake r = false) {x : Exam Expr} (hx : x.ad = none) :
    (rs.foldl (examineEntry L none) x).ad =
      if sinceSet rs = [] then none
      else (sinceSet rs).foldl (playAd L) (some (ClassAd.new L)) := by
  induction rs generalizing x with
  | nil => exact hx
  | cons r rs ih =>
    have hr := hrs r (by simp)
    have htail : ∀ y ∈ rs, isMake y = false := fun y hy => hrs y (by simp [hy])
    rw [foldl_cons]
    cases r with
    | newClassAd | destroyClassAd => simp [isMake] at hr
    | setAttribute key lname value dirty =>
      have hnow : sinceSet (.setAttribute key lname value dirty :: rs) =
          .setAttribute key lname value dirty :: rs := rfl
      have hfirst : (examineEntry L none x (.setAttribute key lname value dirty)).ad =
          some ((ClassAd.new L).assignExpr L lname value.val) := by
        simp [examineEntry,hx]
      rw [hnow,if_neg (cons_ne_nil _ _),foldl_cons]
      exact overlay_some L htail hfirst
    | deleteAttribute key lname =>
      have hstill : (examineEntry L none x (.deleteAttribute key lname)).ad = none := by
        simp [examineEntry,hx]
      exact ih htail hstill
    | beginTransaction | endTransaction | historicalSequenceNumber => exact ih htail hx

private theorem lookup_mergeClassAds (into overlay : ClassAd Expr) (name : CString) :
    (mergeClassAds L into overlay true).lookup name =
      (overlay.lookup name).or (into.lookup name) := by
  have hp := L.iterate_perm overlay.attrList
  have hd : KeyedList.Distinct strcaseeq (L.iterate overlay.attrList) :=
    hp.symm.pairwise overlay.distinct fun {a b} hab => by rw [strcaseeq_comm]; exact hab
  have hnamed : ∀ a ∈ L.iterate overlay.attrList, a.1 ≠ [] :=
    fun a ha => overlay.named a (hp.mem_iff.mp ha)
  have hlist (as : List (CString × Expr)) (hne : ∀ a ∈ as, a.1 ≠ []) (ad : ClassAd Expr) :
      (as.foldl (fun ad a =>
        if true || (ad.lookup a.1).isNone then ad.insert a.1 a.2 else ad) ad).attrList =
        as.foldl (fun l a => KeyedList.insert strcaseeq l a.1 a.2) ad.attrList := by
    induction as generalizing ad with
    | nil => rfl
    | cons a as ih =>
      have hins : (ad.insert a.1 a.2).attrList =
          KeyedList.insert strcaseeq ad.attrList a.1 a.2 := by
        rw [ClassAd.insert,dif_neg (hne a (by simp))]
      rw [foldl_cons,foldl_cons,← hins]
      exact ih (fun x hx => hne x (by simp [hx])) (ad.insert a.1 a.2)
  rw [mergeClassAds,ClassAd.lookup,hlist _ hnamed,
    KeyedList.find_foldl_insert strcaseeq_isEquiv _ _ hd,
    KeyedList.find_perm strcaseeq_isEquiv hp hd]
  rfl

private theorem tableSize_play (r : LogRecord) (t : ClassAdTable Expr) :
    t.tableSize ≤ (r.play L t).tableSize := by
  cases r with
  | newClassAd key mytype targettype => exact t.tableSize_insert _ _
  | destroyClassAd key =>
    rw [LogRecord.play]
    split
    · exact Nat.le_refl _
    · exact (t.tableSize_remove key).ge
  | setAttribute key name value dirty | deleteAttribute key name =>
    rw [LogRecord.play]
    split
    · exact Nat.le_refl _
    · exact (t.tableSize_adjust key _).ge
  | beginTransaction | endTransaction | historicalSequenceNumber => exact Nat.le_refl _

private theorem tableSize_playAll (rs : List LogRecord) (t : ClassAdTable Expr) :
    t.tableSize ≤ (playAll L rs t).tableSize := by
  induction rs generalizing t with
  | nil => exact Nat.le_refl _
  | cons r rs ih => exact Nat.le_trans (tableSize_play L r t) (ih (r.play L t))

private theorem lookup_play_sized {t : ClassAdTable Expr} {r : LogRecord} {k : CString}
    (hsize : (r.play L t).tableSize = t.tableSize) (hmade : r.indexKey = k → isMake r = false) :
    (r.play L t).lookup k =
      if r.indexKey = k then playAd L (t.lookup k) r else t.lookup k := by
  cases r with
  | newClassAd key mytype targettype =>
    have hne : key ≠ k := fun h => by simpa [isMake] using hmade h
    have hindex : ¬ (LogRecord.newClassAd key mytype targettype).indexKey = k := hne
    rw [if_neg hindex,HashTable.lookup_eq_head?,HashTable.lookup_eq_head?]
    exact congrArg List.head? (HashTable.stack_insert_sized hne.symm hsize)
  | destroyClassAd key =>
    have hne : key ≠ k := fun h => by simpa [isMake] using hmade h
    have hindex : ¬ (LogRecord.destroyClassAd key).indexKey = k := hne
    rw [if_neg hindex,LogRecord.play]
    split
    · rfl
    · rw [HashTable.lookup_eq_head?,HashTable.lookup_eq_head?,HashTable.stack_remove,
        if_neg hne.symm]
  | setAttribute key name value dirty =>
    have hindex : (LogRecord.setAttribute key name value dirty).indexKey = key := rfl
    rw [hindex,LogRecord.play]
    split
    · next hnone =>
      split
      · next hk => rw [← hk,hnone,playAd,map_none]
      · rfl
    · rw [HashTable.lookup_adjust]
      by_cases hk : key = k
      · rw [if_pos hk.symm,if_pos hk,playAd]
      · rw [if_neg (Ne.symm hk),if_neg hk]
  | deleteAttribute key name =>
    have hindex : (LogRecord.deleteAttribute key name).indexKey = key := rfl
    rw [hindex,LogRecord.play]
    split
    · next hnone =>
      split
      · next hk => rw [← hk,hnone,playAd,map_none]
      · rfl
    · rw [HashTable.lookup_adjust]
      by_cases hk : key = k
      · rw [if_pos hk.symm,if_pos hk,playAd]
      · rw [if_neg (Ne.symm hk),if_neg hk]
  | beginTransaction | endTransaction | historicalSequenceNumber =>
    split <;> rfl

private theorem lookup_playAll_sized {t : ClassAdTable Expr} {k : CString}
    (hsize : (playAll L rs t).tableSize = t.tableSize)
    (hmade : ∀ r ∈ rs.filter fun r => r.indexKey = k, isMake r = false) :
    (playAll L rs t).lookup k =
      (rs.filter fun r => r.indexKey = k).foldl (playAd L) (t.lookup k) := by
  induction rs generalizing t with
  | nil => rfl
  | cons r rs ih =>
    have hstep := tableSize_play L r t
    have hrest := tableSize_playAll L rs (r.play L t)
    have hall : (playAll L rs (r.play L t)).tableSize = t.tableSize := hsize
    have hplay := lookup_play_sized (k := k) L (t := t) (r := r) (by omega) fun h =>
      hmade r (List.mem_filter.mpr ⟨by simp,by simpa using h⟩)
    have hih := ih (t := r.play L t) (by omega) fun x hx =>
      hmade x (List.mem_filter.mpr ⟨by simp [(List.mem_filter.mp hx).1],(List.mem_filter.mp hx).2⟩)
    rw [hplay] at hih
    change (playAll L rs (r.play L t)).lookup k = _
    rw [hih,filter_cons]
    by_cases hk : r.indexKey = k <;> simp [hk]

private theorem makesFresh_of_unmade {b : Bool}
    (hrs : ∀ r ∈ rs, isMake r = false) : MakesFresh b rs := by
  induction rs generalizing b with
  | nil => trivial
  | cons r rs ih =>
    have hr := hrs r (by simp)
    have htail := ih (b := b) fun x hx => hrs x (by simp [hx])
    cases r with
    | newClassAd key mytype targettype => simp [isMake] at hr
    | destroyClassAd key => simp [isMake] at hr
    | setAttribute | deleteAttribute | beginTransaction | endTransaction
    | historicalSequenceNumber => exact htail

/-- The ads of a key keep their order: a resize reverses them, which shows if there are more
than one. -/
def KeepsOrder (before after : ClassAdTable Expr) (key : CString) : Prop :=
  (before.stack key).length ≤ 1 ∨ after.tableSize = before.tableSize

variable {key : CString}

private theorem lookup_commit {s s' : ClassAdLog Expr} (hcommit : s.commitTransaction L = some s')
    (hmade : ∀ r ∈ s.pendingRecords key, isMake r = false)
    (horder : KeepsOrder s.table s'.table key) :
    s'.table.lookup key = (s.pendingRecords key).foldl (playAd L) (s.table.lookup key) := by
  cases ha : s.activeTransaction with
  | none =>
    rw [commitTransaction,ha] at hcommit
    rw [← some.inj hcommit,pendingRecords,ha]
    rfl
  | some tr =>
    have htab := commitTransaction_table L ha hcommit
    have hpend : s.pendingRecords key = tr.orderedOpLog.filter fun r => r.indexKey = key := by
      rw [pendingRecords,ha]
    rw [hpend] at hmade ⊢
    rcases horder with hone | hsize
    · rw [htab,HashTable.lookup_eq_head?,stack_playAll L _ hone (makesFresh_of_unmade hmade)]
      cases (tr.orderedOpLog.filter fun r => r.indexKey = key).foldl (playAd L)
        (s.table.lookup key) <;> rfl
    · rw [htab] at hsize ⊢
      exact lookup_playAll_sized L hsize hmade

variable {s : ClassAdLog Expr}

private theorem addAttrs_eq (ad : ClassAd Expr)
    (hmade : ∀ r ∈ s.pendingRecords key, isMake r = false) :
    s.addAttrsFromTransaction L (some key) ad =
      match (if sinceSet (s.pendingRecords key) = [] then none
        else (sinceSet (s.pendingRecords key)).foldl (playAd L) (some (ClassAd.new L))) with
      | some attrs => (true,mergeClassAds L ad attrs true)
      | none => (false,ad) := by
  rw [← overlay_none L hmade (x := .initial) rfl]
  cases ha : s.activeTransaction with
  | none =>
    simp only [addAttrsFromTransaction,pendingRecords,ha]
    rfl
  | some tr =>
    simp only [addAttrsFromTransaction,examineTransaction,pendingRecords,ha,
      Transaction.entriesFor_eq]

theorem sinceSet_eq_nil :
    sinceSet rs = [] ↔ ¬ ∃ r ∈ rs, isSet r = true := by
  induction rs with
  | nil => simp [sinceSet]
  | cons r rs ih => cases hr : isSet r <;> simp_all [sinceSet]

private theorem lastWrite_sinceSet (name : CString) (rs : List LogRecord) :
    lastWrite L name (sinceSet rs) = lastWrite L name rs ∨
      lastWrite L name (sinceSet rs) = none ∧ lastWrite L name rs = some none := by
  induction rs with
  | nil => exact .inl rfl
  | cons r rs ih =>
    by_cases hset : isSet r = true
    · have hhere : sinceSet (r :: rs) = r :: rs := by simp [sinceSet,hset]
      exact .inl (by rw [hhere])
    · have hlater : sinceSet (r :: rs) = sinceSet rs := by simp [sinceSet,hset]
      have hwrite : writtenBy L name r = none ∨ writtenBy L name r = some none := by
        cases r with
        | setAttribute key lname value dirty => simp [isSet] at hset
        | deleteAttribute key lname =>
          by_cases h : strcaseeq lname name = true
          · exact .inr (if_pos h)
          · exact .inl (if_neg h)
        | newClassAd | destroyClassAd | beginTransaction | endTransaction
        | historicalSequenceNumber => exact .inl rfl
      rw [hlater,lastWrite]
      rcases ih with heq | ⟨hnone,hsome⟩
      · rw [heq]
        cases hl : lastWrite L name rs with
        | some e => exact .inl rfl
        | none =>
          rcases hwrite with hw | hw
          · exact .inl (by rw [hw]; rfl)
          · exact .inr ⟨rfl,by rw [hw]; rfl⟩
      · exact .inr ⟨hnone,by rw [hsome]; rfl⟩

private theorem lookup_addAttrs (ad : ClassAd Expr)
    (hmade : ∀ r ∈ s.pendingRecords key, isMake r = false) (name : CString) :
    (s.addAttrsFromTransaction L (some key) ad).2.lookup name =
      match lastWrite L name (sinceSet (s.pendingRecords key)) with
      | some e => e.or (ad.lookup name)
      | none => (bornWith L name (s.pendingRecords key)).or (ad.lookup name) := by
  have hsince : ∀ r ∈ sinceSet (s.pendingRecords key), isMake r = false :=
    fun r hr => hmade r ((dropWhile_suffix _).mem hr)
  rw [addAttrs_eq L ad hmade,bornWith]
  by_cases hnil : sinceSet (s.pendingRecords key) = []
  · rw [if_pos hnil,hnil]
    simp [lastWrite]
  · obtain ⟨overlay,hfold,hlook⟩ := lookup_playAds L hsince (ClassAd.new L)
    rw [if_neg hnil,hfold]
    dsimp only
    rw [lookup_mergeClassAds,hlook]
    cases lastWrite L name (sinceSet (s.pendingRecords key)) with
    | some e => rfl
    | none => simp [hnil]

theorem merged_iff (ad : ClassAd Expr)
    (hmade : ∀ r ∈ s.pendingRecords key, isMake r = false) (name : CString) :
    (s.addAttrsFromTransaction L (some key) ad).2.lookup name =
        (lastWrite L name (s.pendingRecords key)).getD (ad.lookup name) ↔
      OverlayRight L ad (s.pendingRecords key) name := by
  rw [lookup_addAttrs L ad hmade,OverlayRight]
  rcases lastWrite_sinceSet L name (s.pendingRecords key) with heq | ⟨hnone,hsome⟩
  · rw [heq]
    cases hl : lastWrite L name (s.pendingRecords key) with
    | none => cases bornWith L name (s.pendingRecords key) <;> simp [eq_comm]
    | some e =>
      have hborn : bornWith L name (s.pendingRecords key) = none := by
        rw [bornWith,heq,hl]
        simp
      cases e with
      | some e => simp
      | none => simp [hborn]
  · rw [hnone,hsome]
    cases bornWith L name (s.pendingRecords key) <;> simp

private theorem addAttrs_returns (ad : ClassAd Expr)
    (hmade : ∀ r ∈ s.pendingRecords key, isMake r = false) :
    (s.addAttrsFromTransaction L (some key) ad).1 = true ↔
      ∃ r ∈ s.pendingRecords key, isSet r = true := by
  have hsince : ∀ r ∈ sinceSet (s.pendingRecords key), isMake r = false :=
    fun r hr => hmade r ((dropWhile_suffix _).mem hr)
  rw [addAttrs_eq L ad hmade]
  by_cases hnil : sinceSet (s.pendingRecords key) = []
  · have hno := sinceSet_eq_nil.mp hnil
    rw [if_pos hnil]
    simpa using hno
  · obtain ⟨overlay,hfold,-⟩ := lookup_playAds L hsince (ClassAd.new L)
    have hset : ∃ r ∈ s.pendingRecords key, isSet r = true :=
      Classical.byContradiction fun h => hnil (sinceSet_eq_nil.mpr h)
    rw [if_neg hnil,hfold]
    exact iff_of_true rfl hset

/-- `AddAttrsFromTransaction` makes the ad that the commit makes, and tells whether it is another
one, exactly if the overlay is right and there is a Set exactly if something changes. -/
theorem addAttrs_iff {s s' : ClassAdLog Expr} {key : CString} {ad : ClassAd Expr}
    (hcommit : s.commitTransaction L = some s') (had : s.table.lookup key = some ad)
    (hmade : ∀ r ∈ s.pendingRecords key, isMake r = false)
    (horder : KeepsOrder s.table s'.table key) :
    ((s'.table.lookup key).map ClassAd.lookup =
        some (s.addAttrsFromTransaction L (some key) ad).2.lookup ∧
      ((s.addAttrsFromTransaction L (some key) ad).1 = true ↔
        (s'.table.lookup key).map ClassAd.lookup ≠ some ad.lookup)) ↔
      (∀ name, OverlayRight L ad (s.pendingRecords key) name) ∧
        ((∃ r ∈ s.pendingRecords key, isSet r = true) ↔
          Changes L ad (s.pendingRecords key)) := by
  obtain ⟨ad',hfold,hlook⟩ := lookup_playAds L hmade ad
  rw [lookup_commit L hcommit hmade horder,had,hfold,addAttrs_returns L ad hmade]
  have hsame : (some ad').map ClassAd.lookup =
      some (s.addAttrsFromTransaction L (some key) ad).2.lookup ↔
        ∀ name, OverlayRight L ad (s.pendingRecords key) name := by
    rw [map_some,some_inj,funext_iff]
    refine forall_congr' fun name => ?_
    rw [hlook,eq_comm]
    exact merged_iff L ad hmade name
  have hchange : (some ad').map ClassAd.lookup ≠ some ad.lookup ↔
      Changes L ad (s.pendingRecords key) := by
    rw [map_some,Ne,some_inj,funext_iff,not_forall,Changes]
    refine exists_congr fun name => ?_
    rw [hlook]
    cases lastWrite L name (s.pendingRecords key) with
    | none => simp
    | some e => simp [eq_comm]
  rw [hsame,hchange]

def makeCmd : List Call :=
  [.appendLog newJob,.appendLog (cmdUpdate (cstr "1")),.beginTransaction]

def setCmd : LogRecord := .mkSetAttribute (cstr "1.0") (cstr "Cmd") (cstr "2") false

def cmdAttrs : List (CString × CString) :=
  [(attrCurrentTime,cstr "time()"),(attrMyType,literals.makeString (cstr "Job")),
    (attrTargetType,literals.makeString (cstr "Machine")),(cstr "Cmd",cstr "1")]

private theorem overlayRight_setCmd {ad : ClassAd CString} (had : ad.attrList = cmdAttrs)
    (name : CString) : OverlayRight literals ad [setCmd] name := by
  have hborn : (ClassAd.new literals).lookup name = none ∨
      (ClassAd.new literals).lookup name = ad.lookup name := by
    have hnew : (ClassAd.new literals).attrList = [(attrCurrentTime,cstr "time()")] := rfl
    rw [ClassAd.lookup,ClassAd.lookup,hnew,had,cmdAttrs,KeyedList.find_cons,
      KeyedList.find_cons]
    by_cases h : strcaseeq attrCurrentTime name = true
    · exact .inr (by rw [if_pos h,if_pos h])
    · exact .inl (by rw [if_neg h]; rfl)
  rw [OverlayRight]
  split
  · trivial
  · next hdel =>
    simp only [lastWrite,writtenBy,setCmd,LogRecord.mkSetAttribute] at hdel
    split at hdel <;> simp at hdel
  · rw [bornWith]
    split
    · exact hborn
    · exact .inl rfl

/-- The command is set anew in the transaction. -/
theorem addAttrs_iff_set :
    ∃ s s' ad, (construct literals 7 0 openEnv []).bind (fun s0 => run (step literals) s0
        (makeCmd ++ [.appendLog ⟨setCmd,rfl⟩])) = some s ∧
      s.commitTransaction literals = some s' ∧ s.table.lookup (cstr "1.0") = some ad ∧
      (s'.table.lookup (cstr "1.0")).map ClassAd.lookup =
        some (s.addAttrsFromTransaction literals (some (cstr "1.0")) ad).2.lookup ∧
      ((s.addAttrsFromTransaction literals (some (cstr "1.0")) ad).1 = true ↔
        (s'.table.lookup (cstr "1.0")).map ClassAd.lookup ≠ some ad.lookup) := by
  have hnew : construct literals 7 0 openEnv [] = some (fresh 7 0) := rfl
  obtain ⟨s,hrun⟩ : ∃ s, run (step literals) (fresh 7 0)
      (makeCmd ++ [.appendLog ⟨setCmd,rfl⟩]) = some s := ⟨_,rfl⟩
  obtain ⟨s',hcommit⟩ : ∃ s', s.commitTransaction literals = some s' := by
    rw [← some.inj hrun]
    exact ⟨_,rfl⟩
  have hpend : s.pendingRecords (cstr "1.0") = [setCmd] := by
    rw [← some.inj hrun]
    rfl
  have hattrs : (s.table.lookup (cstr "1.0")).map ClassAd.attrList = some cmdAttrs := by
    rw [← some.inj hrun]
    decide
  obtain ⟨ad,had,hlist⟩ := Option.map_eq_some_iff.mp hattrs
  have hone : (s.table.stack (cstr "1.0")).length ≤ 1 := by
    rw [← some.inj hrun]
    decide
  have hchanges : Changes literals ad [setCmd] :=
    ⟨cstr "Cmd",some (cstr "2"),rfl,by rw [ClassAd.lookup,hlist]; decide⟩
  refine ⟨s,s',ad,by rw [hnew]; exact hrun,hcommit,had,
    (addAttrs_iff literals hcommit had ?_ (.inl hone)).mpr ?_⟩
  · rw [hpend]
    simp [setCmd,LogRecord.mkSetAttribute,isMake]
  · rw [hpend]
    exact ⟨overlayRight_setCmd hlist,iff_of_true ⟨setCmd,by simp,rfl⟩ hchanges⟩

/-- The command is deleted in the transaction: the copy keeps it. -/
theorem addAttrs_deleted :
    ∃ s s' ad, (construct literals 7 0 openEnv []).bind (fun s0 => run (step literals) s0
        (makeCmd ++ [.appendLog ⟨.deleteAttribute (cstr "1.0") (cstr "Cmd"),rfl⟩])) = some s ∧
      s.commitTransaction literals = some s' ∧ s.table.lookup (cstr "1.0") = some ad ∧
      s.addAttrsFromTransaction literals (some (cstr "1.0")) ad = (false,ad) ∧
      ad.lookup (cstr "Cmd") = some (cstr "1") ∧
      lookupAttr s'.table (cstr "1.0") (cstr "Cmd") = none ∧
      (s'.table.lookup (cstr "1.0")).isSome = true := by
  have hnew : construct literals 7 0 openEnv [] = some (fresh 7 0) := rfl
  obtain ⟨s,hrun⟩ : ∃ s, run (step literals) (fresh 7 0)
      (makeCmd ++ [.appendLog ⟨.deleteAttribute (cstr "1.0") (cstr "Cmd"),rfl⟩]) = some s :=
    ⟨_,rfl⟩
  obtain ⟨s',hcommit,hgone⟩ : ∃ s', s.commitTransaction literals = some s' ∧
      lookupAttr s'.table (cstr "1.0") (cstr "Cmd") = none ∧
      (s'.table.lookup (cstr "1.0")).isSome = true := by
    rw [← some.inj hrun]
    exact ⟨_,rfl,by decide,by decide⟩
  have hattrs : (s.table.lookup (cstr "1.0")).map ClassAd.attrList = some cmdAttrs := by
    rw [← some.inj hrun]
    decide
  obtain ⟨ad,had,hlist⟩ := Option.map_eq_some_iff.mp hattrs
  refine ⟨s,s',ad,by rw [hnew]; exact hrun,hcommit,had,?_,?_,hgone⟩
  · rw [← some.inj hrun]
    rfl
  · rw [ClassAd.lookup,hlist]
    decide

end ClassAdLog

end Condor
