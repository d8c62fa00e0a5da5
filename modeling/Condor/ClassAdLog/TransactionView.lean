import Condor.ClassAdLog.History

/-!
# Looking into the active transaction

`ExamineTransaction` folds the records of one key into flags; `LookupInTransaction` answers from
them what an attribute will be.
-/

namespace Condor

open Lib List Option

namespace ClassAdLog

variable {Expr : Type} (L : ClassAdLanguage Expr)

/-- The local variables of `ExamineTransaction`. -/
structure Exam (Expr : Type) where
  adDeleted : Bool
  valDeleted : Bool
  valFound : Bool
  attrsAdded : Int
  val : Option CString
  ad : Option (ClassAd Expr)

def Exam.initial : Exam Expr := ⟨false,false,false,0,none,none⟩

def examineEntry (name : Option CString) (x : Exam Expr) : LogRecord → Exam Expr
  | .newClassAd .. => { x with adDeleted := false }
  | .destroyClassAd _ =>
    { x with
      adDeleted := true
      ad := none
      attrsAdded := if x.ad.isSome then 0 else x.attrsAdded }
  | .setAttribute _ lname value _ =>
    match name with
    | some n =>
      if strcaseeq lname n then
        { x with val := some value.val, valFound := true, valDeleted := false }
      else x
    | none =>
      { x with
        ad := some ((x.ad.getD (.new L)).assignExpr L lname value.val)
        val := some value.val
        attrsAdded := x.attrsAdded + 1 }
  | .deleteAttribute _ lname =>
    match name with
    | some n =>
      if strcaseeq lname n then
        { x with
          val := if x.valFound then none else x.val
          valFound := false
          valDeleted := true }
      else x
    | none =>
      match x.ad with
      | none => x
      | some ad =>
        { x with ad := some (ad.delete lname), attrsAdded := x.attrsAdded - 1 }
  | _ => x

/-- `ExamineTransaction`: the result, the value and the collected ad. -/
def examineTransaction (s : ClassAdLog Expr) (key : CString) (name : Option CString) :
    Int × Option CString × Option (ClassAd Expr) :=
  match s.activeTransaction with
  | none => (0,none,none)
  | some tr =>
    let x := (tr.entriesFor key).foldl (examineEntry L name) .initial
    match name with
    | some _ =>
      (if x.adDeleted || x.valDeleted then -1 else if x.valFound then 1 else 0,x.val,x.ad)
    | none => (if x.attrsAdded < 0 then 0 else x.attrsAdded,x.val,x.ad)

/-- `LookupInTransaction` with a name. -/
def lookupInTransaction (s : ClassAdLog Expr) (key name : CString) : Int × Option CString :=
  let found := s.examineTransaction L key (some name)
  (found.1,found.2.1)

def lookupAttr (t : ClassAdTable Expr) (key name : CString) : Option Expr :=
  (t.lookup key).bind fun ad => ad.lookup name

/-- What `LookupInTransaction` tells about an attribute agrees with a table: 1 gives its value, -1
says that it is absent, and 0 falls back to the table as it is. -/
def ViewAgrees (s : ClassAdLog Expr) (after : ClassAdTable Expr) (key name : CString) : Prop :=
  let answer := s.lookupInTransaction L key name
  (answer.1 = 1 → ∃ v e, answer.2 = some v ∧ L.parseExpression v = some e ∧
    lookupAttr after key name = some e) ∧
  (answer.1 = -1 → lookupAttr after key name = none) ∧
  (answer.1 = 0 → lookupAttr after key name = lookupAttr s.table key name)

def isMake : LogRecord → Bool
  | .newClassAd .. => true
  | .destroyClassAd _ => true
  | _ => false

def touches (name : CString) : LogRecord → Bool
  | .setAttribute _ lname _ _ => strcaseeq lname name
  | .deleteAttribute _ lname => strcaseeq lname name
  | _ => false

inductive Make where
  | unmade
  | destroyed
  | created (mytype targettype : CString)

inductive Touch where
  | untouched
  | deleted
  | value (v : CString)

def Make.of : Option LogRecord → Make
  | some (.newClassAd _ mytype targettype) => created mytype targettype
  | some _ => destroyed
  | none => unmade

def Touch.of : Option LogRecord → Touch
  | some (.setAttribute _ _ v _) => value v.val
  | some _ => deleted
  | none => untouched

def lastMake (rs : List LogRecord) : Make := .of (rs.reverse.find? isMake)

def lastTouch (name : CString) (rs : List LogRecord) : Touch :=
  .of (rs.reverse.find? (touches name))

def sinceMake (rs : List LogRecord) : List LogRecord :=
  (rs.reverse.takeWhile fun r => !isMake r).reverse

/-- An ad is made only where none is present. -/
def MakesFresh : Bool → List LogRecord → Prop
  | _, [] => True
  | present, .newClassAd .. :: rs => present = false ∧ MakesFresh true rs
  | _, .destroyClassAd _ :: rs => MakesFresh false rs
  | present, _ :: rs => MakesFresh present rs

/-- When the answer is right, by the last record that makes or destroys the ad and the last one
about the attribute. -/
def AnswerRight (committed : Option (ClassAd Expr)) (name : CString) (rs : List LogRecord) :
    Prop :=
  match lastMake rs with
  | .destroyed => True
  | .created mytype targettype =>
    match lastTouch name (sinceMake rs) with
    | .value v => name ≠ [] ∧ (L.parseExpression v).isSome
    | .deleted => True
    | .untouched =>
      -- nothing was said about the attribute since the ad was made
      match lastTouch name rs with
      | .value v => ∃ e, L.parseExpression v = some e ∧
          (ClassAd.newTyped L mytype targettype).lookup name = some e
      | .deleted => (ClassAd.newTyped L mytype targettype).lookup name = none
      | .untouched => (ClassAd.newTyped L mytype targettype).lookup name =
          committed.bind fun ad => ad.lookup name
  | .unmade =>
    match lastTouch name rs with
    | .value v => committed.isSome ∧ name ≠ [] ∧ (L.parseExpression v).isSome
    | .deleted => True
    | .untouched => True

@[simp] theorem lastMake_snoc (rs : List LogRecord) (r : LogRecord) :
    lastMake (rs ++ [r]) = if isMake r then .of (some r) else lastMake rs := by
  by_cases h : isMake r = true <;> simp [lastMake,h]

@[simp] theorem lastTouch_snoc (name : CString) (rs : List LogRecord) (r : LogRecord) :
    lastTouch name (rs ++ [r]) = if touches name r then .of (some r) else lastTouch name rs := by
  by_cases h : touches name r = true <;> simp [lastTouch,h]

@[simp] theorem sinceMake_snoc (rs : List LogRecord) (r : LogRecord) :
    sinceMake (rs ++ [r]) = if isMake r then [] else sinceMake rs ++ [r] := by
  by_cases h : isMake r = true <;> simp [sinceMake,h]

private theorem isMake_sinceMake (rs : List LogRecord) : ∀ r ∈ sinceMake rs, isMake r = false := by
  intro r hr
  have h := List.all_eq_true.mp all_takeWhile r (List.mem_reverse.mp hr)
  simpa using h

private theorem sinceMake_unmade {rs : List LogRecord} (h : lastMake rs = .unmade) :
    ∀ r ∈ rs, isMake r = false := by
  induction rs using List.reverseRecOn with
  | nil => simp
  | append_singleton rs r ih =>
    rw [lastMake_snoc] at h
    split at h
    · cases r <;> simp_all [Make.of,isMake]
    · next hr =>
      intro x hx
      rcases List.mem_append.mp hx with hx | hx
      · exact ih h x hx
      · rw [List.mem_singleton.mp hx]
        simpa using hr

private theorem lastTouch_sinceMake (name : CString) (rs : List LogRecord) :
    lastTouch name (sinceMake rs) = .untouched ∨
      lastTouch name rs = lastTouch name (sinceMake rs) := by
  induction rs using List.reverseRecOn with
  | nil => exact .inr rfl
  | append_singleton rs r ih =>
    rw [sinceMake_snoc]
    split
    · exact .inl rfl
    · rw [lastTouch_snoc,lastTouch_snoc]
      split
      · exact .inr rfl
      · exact ih

private theorem adDeleted_foldl (name : CString) (rs : List LogRecord) :
    (rs.foldl (examineEntry L (some name)) .initial).adDeleted = true ↔
      lastMake rs = .destroyed := by
  induction rs using List.reverseRecOn with
  | nil => simp [lastMake,Make.of,Exam.initial]
  | append_singleton rs r ih =>
    rw [foldl_append,foldl_cons,foldl_nil,lastMake_snoc]
    cases r with
    | newClassAd | destroyClassAd => simp [examineEntry,isMake,Make.of]
    | setAttribute key lname v dirty | deleteAttribute key lname =>
      by_cases h : strcaseeq lname name = true <;> simpa [examineEntry,isMake,h] using ih
    | _ => simpa [examineEntry,isMake] using ih

private theorem value_foldl (name : CString) (rs : List LogRecord) :
    let x := rs.foldl (examineEntry L (some name)) .initial
    match lastTouch name rs with
    | .value v => x.valFound = true ∧ x.valDeleted = false ∧ x.val = some v
    | .deleted => x.valDeleted = true
    | .untouched => x.valFound = false ∧ x.valDeleted = false := by
  induction rs using List.reverseRecOn with
  | nil => exact ⟨rfl,rfl⟩
  | append_singleton rs r ih =>
    rw [foldl_append,foldl_cons,foldl_nil,lastTouch_snoc]
    cases r with
    | setAttribute key lname v dirty | deleteAttribute key lname =>
      by_cases h : strcaseeq lname name = true
      · simp [examineEntry,touches,h,Touch.of]
      · simpa [examineEntry,touches,h] using ih
    | _ => simpa [examineEntry,touches] using ih

def playAd (ad : Option (ClassAd Expr)) : LogRecord → Option (ClassAd Expr)
  | .newClassAd _ mytype targettype => some (.newTyped L mytype targettype)
  | .destroyClassAd _ => none
  | .setAttribute _ name value _ => ad.map fun ad => ad.assignExpr L name value.val
  | .deleteAttribute _ name => ad.map fun ad => ad.delete name
  | _ => ad

theorem ClassAd.lookup_nil (ad : ClassAd Expr) : ad.lookup [] = none := by
  apply KeyedList.find_eq_none.mpr
  intro a ha
  have hne := ad.named a ha
  cases hn : a.1 with
  | nil => exact absurd hn hne
  | cons c cs => rfl

variable {ad : ClassAd Expr}

private theorem lookup_assignExpr_self {lname name v : CString} {e : Expr}
    (h : strcaseeq lname name = true) (hname : name ≠ [])
    (hv : L.parseExpression v = some e) : (ad.assignExpr L lname v).lookup name = some e := by
  have hl : lname ≠ [] := by
    rintro rfl
    cases name with
    | nil => exact hname rfl
    | cons c cs => exact absurd h (by simp [strcaseeq])
  rw [ClassAd.assignExpr,hv]
  dsimp only
  rw [ClassAd.lookup_insert _ hl,if_pos h]

private theorem lookup_assignExpr_other {lname name v : CString}
    (h : ¬ strcaseeq lname name = true) :
    (ad.assignExpr L lname v).lookup name = ad.lookup name := by
  rw [ClassAd.assignExpr]
  split
  · rfl
  · by_cases hl : lname = []
    · simp only [ClassAd.insert,dif_pos hl]
    · rw [ClassAd.lookup_insert _ hl,if_neg h]

private theorem lookup_foldl_playAd (name : CString) (ad : ClassAd Expr) (rs : List LogRecord)
    (hmake : ∀ r ∈ rs, isMake r = false) :
    ∃ ad', rs.foldl (playAd L) (some ad) = some ad' ∧
      match lastTouch name rs with
      | .value v => ∀ e, name ≠ [] → L.parseExpression v = some e → ad'.lookup name = some e
      | .deleted => ad'.lookup name = none
      | .untouched => ad'.lookup name = ad.lookup name := by
  induction rs using List.reverseRecOn with
  | nil => exact ⟨ad,rfl,rfl⟩
  | append_singleton rs r ih =>
    obtain ⟨ad',hfold,htell⟩ := ih fun x hx => hmake x (by simp [hx])
    have hr := hmake r (by simp)
    rw [foldl_append,foldl_cons,foldl_nil,hfold,lastTouch_snoc]
    cases r with
    | newClassAd | destroyClassAd => simp [isMake] at hr
    | setAttribute key lname v dirty =>
      refine ⟨_,rfl,?_⟩
      by_cases h : strcaseeq lname name = true
      · simp only [touches,h,if_true,Touch.of]
        exact fun e hname hv => lookup_assignExpr_self L h hname hv
      · simp only [touches,h,lookup_assignExpr_other L h]
        exact htell
    | deleteAttribute key lname =>
      refine ⟨_,rfl,?_⟩
      by_cases h : strcaseeq lname name = true
      · simp only [touches,h,if_true,ClassAd.lookup_delete,Touch.of]
      · simp only [touches,h,ClassAd.lookup_delete]
        exact htell
    | _ => exact ⟨ad',rfl,by simpa [touches] using htell⟩

private theorem foldl_playAd_none (rs : List LogRecord) (hmake : ∀ r ∈ rs, isMake r = false) :
    rs.foldl (playAd L) none = none := by
  induction rs with
  | nil => rfl
  | cons r rs ih =>
    have hr := hmake r (by simp)
    have hplay : playAd L none r = none := by
      cases r <;> simp_all [playAd,isMake]
    rw [foldl_cons,hplay]
    exact ih fun x hx => hmake x (by simp [hx])

variable {t : ClassAdTable Expr}

private theorem stack_play_other {r : LogRecord} {k : CString} (hk : r.indexKey ≠ k)
    (hlen : (t.stack k).length ≤ 1) :
    (r.play L t).stack k = t.stack k := by
  cases r with
  | newClassAd key mytype targettype =>
    exact HashTable.stack_insert_other (Ne.symm hk) _ hlen
  | destroyClassAd key =>
    rw [LogRecord.play]
    split
    · rfl
    · rw [HashTable.stack_remove]
      exact if_neg (Ne.symm hk)
  | setAttribute | deleteAttribute =>
    rw [LogRecord.play]
    split
    · rfl
    · rw [HashTable.stack_adjust]
      exact if_neg (Ne.symm hk)
  | _ => rfl

private theorem toList_of_length_le_one {l : List (ClassAd Expr)} (h : l.length ≤ 1) :
    l = l.head?.toList := by
  match l with
  | [] => rfl
  | [_] => rfl
  | _ :: _ :: _ => simp at h

private theorem stack_play_self {r : LogRecord} (hlen : (t.stack r.indexKey).length ≤ 1)
    (hfresh : ∀ key my target, r = .newClassAd key my target → t.lookup key = none) :
    (r.play L t).stack r.indexKey = (playAd L (t.lookup r.indexKey) r).toList := by
  have hstack : t.stack r.indexKey = (t.lookup r.indexKey).toList := by
    rw [HashTable.lookup_eq_head?]
    exact toList_of_length_le_one hlen
  cases r with
  | newClassAd key mytype targettype =>
    have hnone := hfresh key mytype targettype rfl
    simp only [LogRecord.play,HashTable.insert_absent hnone]
    rw [HashTable.stack_addItem hnone _ hlen]
    simp [LogRecord.indexKey,LogRecord.getKey,playAd]
  | destroyClassAd key =>
    have hk : (LogRecord.destroyClassAd key).indexKey = key := rfl
    rw [hk] at hstack ⊢
    cases hl : t.lookup key with
    | none => simpa [LogRecord.play,hl,playAd] using hstack
    | some ad => simp [LogRecord.play,hl,playAd,HashTable.stack_remove,hstack]
  | setAttribute key name value dirty =>
    have hk : (LogRecord.setAttribute key name value dirty).indexKey = key := rfl
    rw [hk] at hstack ⊢
    cases hl : t.lookup key with
    | none => simpa [LogRecord.play,hl,playAd] using hstack
    | some ad => simp [LogRecord.play,hl,playAd,HashTable.stack_adjust,hstack]
  | deleteAttribute key name =>
    have hk : (LogRecord.deleteAttribute key name).indexKey = key := rfl
    rw [hk] at hstack ⊢
    cases hl : t.lookup key with
    | none => simpa [LogRecord.play,hl,playAd] using hstack
    | some ad => simp [LogRecord.play,hl,playAd,HashTable.stack_adjust,hstack]
  | _ => exact hstack

/-- If the ad of a key is created only while there is none, all that the records make of it is
told by the records of the key. -/
theorem stack_playAll {k : CString} (rs : List LogRecord) (hlen : (t.stack k).length ≤ 1)
    (hfresh : MakesFresh (t.lookup k).isSome (rs.filter fun r => r.indexKey = k)) :
    (playAll L rs t).stack k =
      ((rs.filter fun r => r.indexKey = k).foldl (playAd L) (t.lookup k)).toList := by
  induction rs generalizing t with
  | nil =>
    rw [HashTable.lookup_eq_head?]
    exact toList_of_length_le_one hlen
  | cons r rs ih =>
    by_cases hk : r.indexKey = k
    · subst hk
      rw [filter_cons_of_pos (by simp)] at hfresh ⊢
      have hnone : ∀ key my target, r = .newClassAd key my target → t.lookup key = none := by
        rintro key my target rfl
        have habsent : (t.lookup key).isSome = false := hfresh.1
        simpa using habsent
      have hself := stack_play_self L hlen hnone
      have hnext : (r.play L t).lookup r.indexKey = playAd L (t.lookup r.indexKey) r := by
        rw [HashTable.lookup_eq_head?,hself]
        cases playAd L (t.lookup r.indexKey) r <;> rfl
      have hstep := ih (t := r.play L t) (by
        rw [hself]
        cases playAd L (t.lookup r.indexKey) r <;> simp) (by
        rw [hnext]
        cases r with
        | newClassAd key my target => exact hfresh.2
        | destroyClassAd key => exact hfresh
        | setAttribute | deleteAttribute => simpa [MakesFresh,playAd] using hfresh
        | _ => exact hfresh)
      rw [hnext] at hstep
      exact hstep
    · rw [filter_cons_of_neg (by simpa using hk)] at hfresh ⊢
      have hother := stack_play_other L hk hlen
      have hnext : (r.play L t).lookup k = t.lookup k := by
        rw [HashTable.lookup_eq_head?,hother,← HashTable.lookup_eq_head?]
      have hstep := ih (t := r.play L t) (by rw [hother]; exact hlen)
        (by rw [hnext]; exact hfresh)
      rw [hnext] at hstep
      exact hstep

variable {s s' : ClassAdLog Expr} {tr : Transaction}

private theorem appendLog_active {rs : List Update}
    (ha : s.activeTransaction = some tr) (hlog : tr.orderedOpLog = openRecords rs) {r : Update}
    (h : s.appendLog L r.val = some s') :
    s'.table = s.table ∧ ∃ tr', s'.activeTransaction = some tr' ∧
      tr'.orderedOpLog = openRecords (rs ++ [r]) := by
  rw [appendLog,ha] at h
  obtain rfl := some.inj h
  refine ⟨rfl,_,rfl,?_⟩
  have hempty : tr.emptyTransaction = rs.isEmpty := by
    rw [tr.flagged,hlog,openRecords]
    cases rs <;> simp
  cases rs with
  | nil | cons => simp [hempty,Transaction.appendLog,openRecords,hlog]

private theorem run_appends {rs us : List Update}
    (ha : s.activeTransaction = some tr) (hlog : tr.orderedOpLog = openRecords rs)
    (h : run (step L) s (us.map Call.appendLog) = some s') :
    s'.table = s.table ∧ ∃ tr', s'.activeTransaction = some tr' ∧
      tr'.orderedOpLog = openRecords (rs ++ us) := by
  induction us generalizing s tr rs with
  | nil =>
    obtain rfl := some.inj h
    exact ⟨rfl,tr,ha,by rw [append_nil]; exact hlog⟩
  | cons u us ih =>
    obtain ⟨s1,hs1,h⟩ := run_cons_eq_some h
    obtain ⟨htab,tr1,ha1,hlog1⟩ := appendLog_active L ha hlog hs1
    obtain ⟨htab',tr',ha',hlog'⟩ := ih ha1 hlog1 h
    exact ⟨htab'.trans htab,tr',ha',by rw [hlog',append_assoc]; rfl⟩

theorem commitTransaction_table
    (ha : s.activeTransaction = some tr) (h : s.commitTransaction L = some s') :
    s'.table = playAll L tr.orderedOpLog s.table := by
  rw [commitTransaction,ha] at h
  dsimp only at h
  split at h
  · next hempty =>
    obtain rfl := some.inj h
    have hnil : tr.orderedOpLog = [] := by
      rw [tr.flagged] at hempty
      exact List.isEmpty_iff.mp hempty
    rw [hnil]
    rfl
  · split at h
    · simp at h
    · next file table hc =>
      obtain rfl := some.inj h
      rw [Transaction.commit] at hc
      split at hc
      · simp at hc
      · rw [commitLoop_table] at hc
        rw [← (Prod.mk.inj (some.inj hc)).2]
        simp [Transaction.appendLog,playAll,LogRecord.play]

private theorem filter_openRecords (us : List Update) (k : CString) (name : CString)
    (c : Option (ClassAd Expr)) :
    let own := (openRecords us).filter fun r => r.indexKey = k
    let own' := (us.map Subtype.val).filter fun r => r.indexKey = k
    own.foldl (examineEntry L (some name)) .initial =
        own'.foldl (examineEntry L (some name)) .initial ∧
      own.foldl (playAd L) c = own'.foldl (playAd L) c ∧
      (∀ b, MakesFresh b own ↔ MakesFresh b own') := by
  by_cases hus : us = []
  · simp [openRecords,hus]
  · rw [openRecords,if_neg hus]
    by_cases hk : LogRecord.beginTransaction.indexKey = k
    · rw [filter_cons_of_pos (by simpa using hk)]
      exact ⟨rfl,rfl,fun b => Iff.rfl⟩
    · rw [filter_cons_of_neg (by simpa using hk)]
      exact ⟨rfl,rfl,fun b => Iff.rfl⟩

/-- The result of the loop as the answer of `LookupInTransaction`. -/
private def AnswerAgrees (x : Exam Expr) (final before : Option Expr) : Prop :=
  let result : Int := if x.adDeleted || x.valDeleted then -1 else if x.valFound then 1 else 0
  (result = 1 → ∃ v e, x.val = some v ∧ L.parseExpression v = some e ∧ final = some e) ∧
    (result = -1 → final = none) ∧ (result = 0 → final = before)

section

variable {x : Exam Expr} {final before : Option Expr}

private theorem answerAgrees_absent (h : x.adDeleted = true ∨ x.valDeleted = true) :
    AnswerAgrees L x final before ↔ final = none := by
  have hr : (x.adDeleted || x.valDeleted) = true := by simpa using h
  simp [AnswerAgrees,hr]

private theorem answerAgrees_value (ha : x.adDeleted = false) {v : CString}
    (h : x.valFound = true ∧ x.valDeleted = false ∧ x.val = some v) :
    AnswerAgrees L x final before ↔
      ∃ e, L.parseExpression v = some e ∧ final = some e := by
  simp [AnswerAgrees,ha,h]

private theorem answerAgrees_fallback (ha : x.adDeleted = false)
    (h : x.valFound = false ∧ x.valDeleted = false) :
    AnswerAgrees L x final before ↔ final = before := by
  simp [AnswerAgrees,ha,h]

end

private theorem value_seen_iff {name v : CString}
    (h : ∀ e, name ≠ [] → L.parseExpression v = some e → ad.lookup name = some e) :
    (∃ e, L.parseExpression v = some e ∧ ad.lookup name = some e) ↔
      name ≠ [] ∧ (L.parseExpression v).isSome := by
  constructor
  · rintro ⟨e,hp,hl⟩
    refine ⟨?_,by simp [hp]⟩
    rintro rfl
    rw [ClassAd.lookup_nil] at hl
    exact absurd hl (by simp)
  · rintro ⟨hn,hp⟩
    obtain ⟨e,he⟩ := Option.isSome_iff_exists.mp hp
    exact ⟨e,he,h e hn he⟩

private theorem answer_unmade (name : CString) (c : Option (ClassAd Expr)) {rs : List LogRecord}
    (hlast : lastMake rs = .unmade) :
    AnswerAgrees L (rs.foldl (examineEntry L (some name)) .initial)
      ((rs.foldl (playAd L) c).bind fun ad => ad.lookup name)
      (c.bind fun ad => ad.lookup name) ↔ AnswerRight L c name rs := by
  have hdel : (rs.foldl (examineEntry L (some name)) .initial).adDeleted = false := by
    have h := adDeleted_foldl L name rs
    rw [hlast] at h
    simpa using h
  have hval := value_foldl L name rs
  have hmake := sinceMake_unmade hlast
  simp only [AnswerRight,hlast]
  cases c with
  | none =>
    rw [foldl_playAd_none L rs hmake]
    cases ht : lastTouch name rs with
    | value v =>
      rw [ht] at hval
      rw [answerAgrees_value L hdel hval]
      simp
    | deleted =>
      rw [ht] at hval
      rw [answerAgrees_absent L (.inr hval)]
      simp
    | untouched =>
      rw [ht] at hval
      rw [answerAgrees_fallback L hdel hval]
      simp
  | some ad =>
    obtain ⟨ad',hfold,htell⟩ := lookup_foldl_playAd L name ad rs hmake
    rw [hfold]
    cases ht : lastTouch name rs with
    | value v =>
      rw [ht] at hval htell
      rw [answerAgrees_value L hdel hval]
      simpa using value_seen_iff L htell
    | deleted =>
      rw [ht] at hval htell
      rw [answerAgrees_absent L (.inr hval)]
      exact iff_true_intro htell
    | untouched =>
      rw [ht] at hval htell
      rw [answerAgrees_fallback L hdel hval]
      exact iff_true_intro htell

private theorem foldl_playAd_split (c : Option (ClassAd Expr)) (rs : List LogRecord) :
    match lastMake rs with
    | .unmade => True
    | .destroyed => rs.foldl (playAd L) c = none
    | .created mytype targettype => rs.foldl (playAd L) c =
        (sinceMake rs).foldl (playAd L) (some (.newTyped L mytype targettype)) := by
  induction rs using List.reverseRecOn with
  | nil => trivial
  | append_singleton rs r ih =>
    rw [foldl_append,foldl_cons,foldl_nil,lastMake_snoc,sinceMake_snoc]
    cases r with
    | newClassAd | destroyClassAd => rfl
    | _ =>
      simp only [isMake,Bool.false_eq_true,if_false]
      cases hm : lastMake rs with
      | unmade => trivial
      | destroyed =>
        rw [hm] at ih
        rw [ih]
        rfl
      | created mytype targettype =>
        rw [hm] at ih
        simp only [foldl_append,foldl_cons,foldl_nil]
        rw [ih]

private theorem answer_iff (name : CString) (c : Option (ClassAd Expr)) (rs : List LogRecord) :
    AnswerAgrees L (rs.foldl (examineEntry L (some name)) .initial)
      ((rs.foldl (playAd L) c).bind fun ad => ad.lookup name)
      (c.bind fun ad => ad.lookup name) ↔ AnswerRight L c name rs := by
  have hdel := adDeleted_foldl L name rs
  have hsplit := foldl_playAd_split L c rs
  have hval := value_foldl L name rs
  cases hm : lastMake rs with
  | unmade => exact answer_unmade L name c hm
  | destroyed =>
    rw [hm] at hdel hsplit
    rw [answerAgrees_absent L (.inl (hdel.mpr rfl)),hsplit]
    simp [AnswerRight,hm]
  | created mytype targettype =>
    rw [hm] at hdel hsplit
    have hdel' : (rs.foldl (examineEntry L (some name)) .initial).adDeleted = false := by
      simpa using hdel
    obtain ⟨ad,hfold,htell⟩ := lookup_foldl_playAd L name
      (.newTyped L mytype targettype) (sinceMake rs) (isMake_sinceMake rs)
    rw [hsplit,hfold]
    simp only [AnswerRight,hm,bind_some]
    rcases lastTouch_sinceMake name rs with hun | hsame
    · -- the touches before the ad was made count for the answer, but not for the ad
      rw [hun] at htell
      simp only [hun]
      cases ht : lastTouch name rs with
      | value v =>
        rw [ht] at hval
        rw [answerAgrees_value L hdel' hval,htell]
      | deleted =>
        rw [ht] at hval
        rw [answerAgrees_absent L (.inr hval),htell]
      | untouched =>
        rw [ht] at hval
        rw [answerAgrees_fallback L hdel' hval,htell]
    · rw [hsame] at hval
      cases ht : lastTouch name (sinceMake rs) with
      | value v =>
        rw [ht] at hval htell
        rw [answerAgrees_value L hdel' hval]
        exact value_seen_iff L htell
      | deleted =>
        rw [ht] at hval htell
        rw [answerAgrees_absent L (.inr hval)]
        exact iff_true_intro htell
      | untouched =>
        rw [ht] at hval htell
        rw [answerAgrees_fallback L hdel' hval,htell,hsame,ht]

/-- What `LookupInTransaction` says agrees with the table behind the commit exactly when
`AnswerRight` says so, if the ad of the key is never created while there is one. -/
theorem viewAgrees_iff {s0 s s' : ClassAdLog Expr} {us : List Update} {key name : CString}
    (hbegin : s0.activeTransaction = some .new)
    (happend : run (step L) s0 (us.map Call.appendLog) = some s)
    (hcommit : s.commitTransaction L = some s') (hone : (s0.table.stack key).length ≤ 1)
    (hfresh : MakesFresh (s0.table.lookup key).isSome
      ((us.map Subtype.val).filter fun r => r.indexKey = key)) :
    ViewAgrees L s s'.table key name ↔
      AnswerRight L (s0.table.lookup key) name
        ((us.map Subtype.val).filter fun r => r.indexKey = key) := by
  have hnew : Transaction.new.orderedOpLog = openRecords [] := rfl
  obtain ⟨htab,tr,ha,hlog⟩ := run_appends L hbegin hnew happend
  rw [nil_append] at hlog
  obtain ⟨hexam,hplay,hmakes⟩ := filter_openRecords L us key name (s0.table.lookup key)
  have hstack := stack_playAll L tr.orderedOpLog (t := s0.table) hone
    (by rw [hlog]; exact (hmakes _).mpr hfresh)
  have hafter : s'.table.lookup key =
      ((us.map Subtype.val).filter fun r => r.indexKey = key).foldl (playAd L)
        (s0.table.lookup key) := by
    rw [commitTransaction_table L ha hcommit,htab,HashTable.lookup_eq_head?,hstack,hlog,hplay]
    cases ((us.map Subtype.val).filter fun r => r.indexKey = key).foldl (playAd L)
      (s0.table.lookup key) <;> rfl
  rw [← answer_iff]
  simp only [ViewAgrees,AnswerAgrees,lookupInTransaction,examineTransaction,ha,lookupAttr,hafter,
    htab,Transaction.entriesFor_eq,hlog,hexam]

def jobTransaction : ClassAdLog CString where
  table := newClassAdTable.addItem (cstr "1.0")
    (.newTyped literals (cstr "Job") (cstr "Machine"))
  logFp := some []
  activeTransaction := some .new
  nondurableLevel := 0
  historicalSequenceNumber := 1
  originalLogBirthdate := 7
  maxHistoricalLogs := 0

private theorem jobTransaction_stack (k : CString) :
    (jobTransaction.table.stack k).length ≤ 1 := by
  have hnil : ((newClassAdTable : ClassAdTable CString).stack k).length ≤ 1 := by
    simp [newClassAdTable]
  have hstack := HashTable.stack_addItem (t := newClassAdTable) (k := cstr "1.0") rfl
    (ClassAd.newTyped literals (cstr "Job") (cstr "Machine")) hnil
  have hjob : jobTransaction.table.stack k = _ := hstack
  rw [hjob]
  split
  · simp
  · exact hnil

def resetCmd : List Update :=
  [⟨.deleteAttribute (cstr "1.0") (cstr "Cmd"),rfl⟩,cmdUpdate (cstr "1")]

/-- An attribute that is deleted and set again is seen with its new value. -/
theorem viewAgrees_iff_reset :
    ∃ s s', run (step literals) jobTransaction (resetCmd.map Call.appendLog) = some s ∧
      s.commitTransaction literals = some s' ∧
      ViewAgrees literals s s'.table (cstr "1.0") (cstr "CMD") := by
  have hright : AnswerRight literals (jobTransaction.table.lookup (cstr "1.0")) (cstr "CMD")
      (resetCmd.map Subtype.val) := ⟨by decide,by decide,by decide⟩
  have hrun : run (step literals) jobTransaction (resetCmd.map Call.appendLog) = some _ := rfl
  exact ⟨_,_,hrun,rfl,(viewAgrees_iff literals rfl hrun rfl
    (jobTransaction_stack (cstr "1.0")) trivial).mpr hright⟩

def recreateJob : List Update :=
  [cmdUpdate (cstr "1"),⟨.destroyClassAd (cstr "1.0"),rfl⟩,newJob]

/-- A value that was set before the ad is destroyed and created again is still reported, though
the commit drops it. -/
theorem viewAgrees_recreate :
    ∃ s s', run (step literals) jobTransaction (recreateJob.map Call.appendLog) = some s ∧
      s.commitTransaction literals = some s' ∧
      ¬ ViewAgrees literals s s'.table (cstr "1.0") (cstr "Cmd") := by
  refine ⟨_,_,rfl,rfl,?_⟩
  intro h
  obtain ⟨v,e,-,-,he⟩ := h.1 (by decide)
  have hsome := congrArg Option.isSome he
  rw [isSome_some] at hsome
  exact absurd hsome (by decide)

/-- Whatever is logged in a transaction, to abort it leaves everything as it was, and to commit it
does to the table what its records do one by one. -/
theorem transaction_atomic (s : ClassAdLog Expr) (us : List Update) :
    let s0 := { s with activeTransaction := none }
    let calls := .beginTransaction :: us.map Call.appendLog
    run (step L) s0 (calls ++ [.abortTransaction]) = some s0 ∧
    ∀ s' ∈ run (step L) s0 (calls ++ [.commitTransaction]),
      ∀ t ∈ run (step L) s0 (us.map Call.appendLog), t.table = s'.table := by
  intro s0 calls
  have hopen : ∀ (us : List Update) (tr : Transaction), ∃ tr',
      run (step L) { s with activeTransaction := some tr } (us.map Call.appendLog) =
        some { s with activeTransaction := some tr' } := by
    intro us
    induction us with
    | nil => exact fun tr => ⟨tr,rfl⟩
    | cons u us ih => exact fun tr => ih _
  have hplay : ∀ (us : List Update) (s t : ClassAdLog Expr), s.activeTransaction = none →
      run (step L) s (us.map Call.appendLog) = some t →
      t.table = playAll L (us.map Subtype.val) s.table := by
    intro us
    induction us with
    | nil => exact fun s t _ ht => by rw [← some.inj ht]; rfl
    | cons u us ih =>
      intro s t hs ht
      obtain ⟨s1,hs1,ht⟩ := run_cons_eq_some ht
      rw [step,appendLog,hs] at hs1
      dsimp only at hs1
      split at hs1
      · obtain rfl := some.inj hs1
        exact ih _ t rfl ht
      · split at hs1
        · obtain rfl := some.inj hs1
          exact ih _ t rfl ht
        · simp at hs1
  obtain ⟨tr,htr⟩ := hopen us .new
  have hcalls : run (step L) s0 calls = some { s with activeTransaction := some tr } := htr
  refine ⟨by rw [run_append,hcalls]; rfl,fun s' hs' t ht => ?_⟩
  rw [run_append,hcalls] at hs'
  obtain ⟨_,hc,hs'⟩ := run_cons_eq_some hs'
  obtain rfl := some.inj hs'
  obtain ⟨-,tr',htr',hlog⟩ := @run_appends _ L _ _ _ [] us rfl rfl htr
  obtain rfl := some.inj htr'
  rw [hplay us s0 t rfl ht,
    commitTransaction_table L (s := { s with activeTransaction := some tr }) rfl hc,hlog,
    nil_append,openRecords]
  cases us with
  | nil | cons => rfl

/-- An attribute of a job is deleted and set again, in a transaction and one by one. -/
theorem transaction_atomic_reset :
    let s := { jobTransaction with activeTransaction := none }
    ∃ s' t, run (step literals) s
        (.beginTransaction :: resetCmd.map Call.appendLog ++ [.commitTransaction]) = some s' ∧
      run (step literals) s (resetCmd.map Call.appendLog) = some t ∧ t.table = s'.table :=
  ⟨_,_,rfl,rfl,(transaction_atomic literals jobTransaction resetCmd).2 _ rfl _ rfl⟩

end ClassAdLog

end Condor
