import Condor.Utils.CString

/-!
# Checking the events of the jobs

`CheckEvents` counts the events of every job. A check assigns the result and the message at every
violation it finds, so the last one decides.
-/

namespace Condor.CheckEvents

open Lib List Option

structure CondorID where
  cluster : Int
  proc : Int
  subproc : Int
  deriving DecidableEq

inductive ULogEventNumber where
  | submit
  | execute
  | executableError
  | jobAborted
  | jobTerminated
  | postScriptTerminated
  | other
  deriving DecidableEq

structure ULogEvent where
  eventNumber : ULogEventNumber
  id : CondorID
  deriving DecidableEq

inductive CheckEventResult where
  | okay
  | badEvent
  | error
  | warning
  deriving DecidableEq

def CheckEventResult.severity : CheckEventResult → Nat
  | .okay => 0
  | .badEvent => 1
  | .warning => 1
  | .error => 2

structure JobInfo where
  submitCount : Nat := 0
  errorCount : Nat := 0
  abortCount : Nat := 0
  termCount : Nat := 0
  postScriptCount : Nat := 0
  deriving DecidableEq

def JobInfo.totalEndCount (info : JobInfo) : Nat := info.abortCount + info.termCount

/-- `allowEvents`. -/
abbrev Allow := BitVec 32

namespace Allow

variable (a : Allow)

def allowAlmostAll : Bool := a.getLsbD 0
def allowExtraAborts : Bool := a.getLsbD 0 || a.getLsbD 1
def allowExtraRuns : Bool := a.getLsbD 2
def allowGarbage : Bool := a.getLsbD 0 || a.getLsbD 3
def allowExecSubmit : Bool := a.getLsbD 0 || a.getLsbD 4
def allowDoubleTerm : Bool := a.getLsbD 0 || a.getLsbD 5
def allowDuplicates : Bool := a.getLsbD 0 || a.getLsbD 6

end Allow

/-- One assignment to `errorMsg` and `result`. -/
structure Finding where
  errorMsg : CString
  result : CheckEventResult
  deriving DecidableEq

def assign (before : Finding) (l : List Finding) : Finding := l.foldl (fun _ f => f) before

def nothing : Finding := ⟨[],.okay⟩

def noSubmitId : CondorID := ⟨-1,0,0⟩

def idString (id : CondorID) : CString :=
  cstr "BAD EVENT: job " ++ cstr "(" ++ decimalInt id.cluster ++ cstr "." ++ decimalInt id.proc ++
    cstr "." ++ decimalInt id.subproc ++ cstr ")"

def finding (violated : Bool) (idStr : CString) (text : String) (count : Nat) (tolerated : Bool)
    (mild : CheckEventResult) : List Finding :=
  if violated then
    [⟨idStr ++ cstr text ++ decimal count ++ cstr ")",if tolerated then mild else .error⟩]
  else []

section Checks

variable (a : Allow) (idStr : CString) (info : JobInfo)

def checkJobSubmit : List Finding :=
  finding (info.submitCount != 1) idStr " submitted, submit count != 1 (" info.submitCount
    a.allowDuplicates .badEvent ++
  finding (info.totalEndCount != 0) idStr " submitted, total end count != 0 (" info.totalEndCount
    a.allowExecSubmit .badEvent

def checkJobExecute : List Finding :=
  finding (info.submitCount < 1) idStr " executing, submit count < 1 (" info.submitCount
    (a.allowExecSubmit || a.allowGarbage) .warning ++
  finding (info.totalEndCount != 0) idStr " executing, total end count != 0 (" info.totalEndCount
    a.allowExtraRuns .badEvent

def toleratesEnds : Bool :=
  (a.allowExtraAborts && (info.abortCount == 1) && (info.termCount == 1)) ||
    (a.allowDoubleTerm && (info.termCount == 2)) || a.allowExtraRuns || a.allowDuplicates

def checkJobEnd : List Finding :=
  finding (info.submitCount < 1) idStr " ended, submit count < 1 (" info.submitCount
    (a.allowExecSubmit || (a.allowGarbage && info.submitCount ≤ 1)) .warning ++
  finding (info.totalEndCount != 1) idStr " ended, total end count != 1 (" info.totalEndCount
    (toleratesEnds a info) .badEvent ++
  finding (info.postScriptCount != 0) idStr " ended, post script count != 0 ("
    info.postScriptCount a.allowDuplicates .badEvent

def ranWithoutJob (id : CondorID) : Bool :=
  id == noSubmitId && info.submitCount == 0 && info.termCount == 0 && 1 ≤ info.postScriptCount

def checkPostTerm (id : CondorID) : List Finding :=
  if ranWithoutJob info id then []
  else
    finding (info.submitCount < 1) idStr " post script ended, submit count < 1 (" info.submitCount
      (a.allowDuplicates || (a.allowGarbage && info.submitCount ≤ 1)) .badEvent ++
    finding (info.totalEndCount < 1) idStr " post script ended, total end count < 1 ("
      info.totalEndCount a.allowAlmostAll .badEvent ++
    finding (1 < info.postScriptCount) idStr " post script ended, post script count > 1 ("
      info.postScriptCount (a.allowDuplicates || a.allowGarbage) .badEvent

def toleratesFinalEnds : Bool :=
  (a.allowExtraAborts && (info.abortCount == 1) && (info.termCount == 1)) ||
    (a.allowDoubleTerm && (info.termCount == 2)) || a.allowExtraRuns ||
    (a.allowGarbage && info.totalEndCount == 0) || a.allowDuplicates

def toleratesFinalSubmits : Bool :=
  a.allowAlmostAll || (a.allowGarbage && info.submitCount ≤ 1)

def checkJobFinal (id : CondorID) : List Finding :=
  if ranWithoutJob info id then []
  else if id.subproc != 0 then []
  else
    finding (info.submitCount != 1) idStr " ended, submit count != 1 (" info.submitCount
      (toleratesFinalSubmits a info) .badEvent ++
    finding (info.totalEndCount != 1) idStr " ended, total end count != 1 (" info.totalEndCount
      (toleratesFinalEnds a info) .badEvent ++
    finding (1 < info.postScriptCount) idStr " ended, post script count > 1 ("
      info.postScriptCount (a.allowDuplicates || a.allowGarbage) .badEvent

end Checks

abbrev JobEntry := CondorID × JobInfo

structure Checker where
  allowEvents : Allow := 0
  jobHash : List JobEntry := []

namespace Checker

def lookup (c : Checker) (id : CondorID) : Option JobInfo := KeyedList.find (· == ·) c.jobHash id

/-- `jobHash.insert` with `rejectDuplicateKeys`. -/
def insert (c : Checker) (id : CondorID) (info : JobInfo) : Option Checker :=
  match c.lookup id with
  | some _ => none
  | none => some { c with jobHash := KeyedList.insert (· == ·) c.jobHash id info }

/-- The entry that `info` points to is changed in place. -/
def setInfo (c : Checker) (id : CondorID) (info : JobInfo) : Checker :=
  { c with jobHash := KeyedList.insert (· == ·) c.jobHash id info }

end Checker

def count (e : ULogEventNumber) (info : JobInfo) : JobInfo :=
  match e with
  | .submit => { info with submitCount := info.submitCount + 1 }
  | .execute => info
  | .executableError => { info with errorCount := info.errorCount + 1 }
  | .jobAborted => { info with abortCount := info.abortCount + 1 }
  | .jobTerminated => { info with termCount := info.termCount + 1 }
  | .postScriptTerminated => { info with postScriptCount := info.postScriptCount + 1 }
  | .other => info

def checkCounted (a : Allow) (e : ULogEvent) (info : JobInfo) : List Finding :=
  match e.eventNumber with
  | .submit => checkJobSubmit a (idString e.id) info
  | .execute => checkJobExecute a (idString e.id) info
  | .executableError => []
  | .jobAborted => checkJobEnd a (idString e.id) info
  | .jobTerminated => checkJobEnd a (idString e.id) info
  | .postScriptTerminated => checkPostTerm a (idString e.id) info e.id
  | .other => []

/-- What `CheckAnEvent` assigns, in order, and the table it leaves. -/
def findings (c : Checker) (e : ULogEvent) : List Finding × Checker :=
  match (match c.lookup e.id with
    | some info => some (info,c)
    | none => (c.insert e.id {}).map fun c => ({},c)) with
  | none => ([⟨cstr "EVENT ERROR: hash table insert error",.error⟩],c)
  | some (info,c) =>
    (checkCounted c.allowEvents e (count e.eventNumber info),
      c.setInfo e.id (count e.eventNumber info))

def checkAnEvent (c : Checker) (e : ULogEvent) : Finding × Checker :=
  (assign nothing (findings c e).1,(findings c e).2)

def maxMsgLen : Nat := 1024

structure Report where
  errorMsg : CString := []
  msgFull : Bool := false
  result : CheckEventResult := .okay
  deriving DecidableEq

def checkNextJob (a : Allow) (r : Report) (job : JobEntry) : Report :=
  let r := if !r.msgFull && maxMsgLen < r.errorMsg.length then
      { r with errorMsg := r.errorMsg ++ cstr " ...",msgFull := true }
    else r
  let found := assign ⟨[],r.result⟩ (checkJobFinal a (idString job.1) job.2 job.1)
  let r := { r with result := found.result }
  if found.errorMsg ≠ [] ∧ r.msgFull = false then
    { r with errorMsg :=
        (if r.errorMsg ≠ [] then r.errorMsg ++ cstr "; " else r.errorMsg) ++ found.errorMsg }
  else r

/-- `CheckAllJobs`, with the jobs in the order in which the table is iterated. -/
def checkAllJobs (a : Allow) (jobs : List JobEntry) : Report := jobs.foldl (checkNextJob a) {}

theorem assign_append (before : Finding) (l l' : List Finding) :
    assign before (l ++ l') = assign (assign before l) l' := foldl_append

private theorem assign_finding (before : Finding) (violated : Bool) (idStr : CString)
    (text : String)
    (n : Nat) (tolerated : Bool) (mild : CheckEventResult) :
    (assign before (finding violated idStr text n tolerated mild)).result =
      if violated then (if tolerated then mild else .error) else before.result := by
  cases violated with
  | false | true => rfl

def KeepsWorst (l : List Finding) : Prop :=
  l.Pairwise fun f g => f.result.severity ≤ g.result.severity

private theorem keepsWorst_finding (violated : Bool) (idStr : CString) (text : String) (n : Nat)
    (tolerated : Bool) (mild : CheckEventResult) :
    KeepsWorst (finding violated idStr text n tolerated mild) := by
  cases violated with
  | false => exact List.Pairwise.nil
  | true => exact pairwise_singleton _ _

theorem finding_le_finding_iff (mild mild' : CheckEventResult) (hm : mild.severity = 1)
    (hm' : mild'.severity = 1) {idStr : CString} {v v' t t' : Bool} {text text' : String}
    {n n' : Nat} :
    (∀ f ∈ finding v idStr text n t mild, ∀ g ∈ finding v' idStr text' n' t' mild',
      f.result.severity ≤ g.result.severity) ↔
    ¬ (v = true ∧ t = false ∧ v' = true ∧ t' = true) := by
  have herror : CheckEventResult.error.severity = 2 := rfl
  cases v with
  | false => simp [finding]
  | true =>
    cases v' with
    | false => simp [finding]
    | true => cases t <;> cases t' <;> simp [finding,hm,hm',herror]

def finalResult (a : Allow) (job : JobEntry) : CheckEventResult :=
  (assign nothing (checkJobFinal a (idString job.1) job.2 job.1)).result

def worst (a : Allow) (jobs : List JobEntry) : Nat :=
  (jobs.map fun job => (finalResult a job).severity).foldr max 0

def ReportsWorst (a : Allow) (jobs : List JobEntry) : Prop :=
  ∀ order : List JobEntry, order.Perm jobs →
    (checkAllJobs a order).result.severity = worst a jobs

/-- The last violation among a job's counts (of the POST scripts, else of the ends, else of the
submits) is tolerated, or is not. -/
def LeftWith (tolerated : Bool) (a : Allow) (job : JobEntry) : Prop :=
  ranWithoutJob job.2 job.1 = false ∧ job.1.subproc = 0 ∧
    ((1 < job.2.postScriptCount ∧ (a.allowDuplicates || a.allowGarbage) = tolerated) ∨
     (job.2.postScriptCount ≤ 1 ∧ job.2.totalEndCount ≠ 1 ∧
        toleratesFinalEnds a job.2 = tolerated) ∨
     (job.2.postScriptCount ≤ 1 ∧ job.2.totalEndCount = 1 ∧ job.2.submitCount ≠ 1 ∧
        toleratesFinalSubmits a job.2 = tolerated))
deriving Decidable

private theorem assign_checkJobFinal (a : Allow) (r : CheckEventResult) (job : JobEntry) :
    (assign ⟨[],r⟩ (checkJobFinal a (idString job.1) job.2 job.1)).result =
      if LeftWith true a job then .badEvent else if LeftWith false a job then .error else r := by
  unfold LeftWith checkJobFinal
  by_cases hran : ranWithoutJob job.2 job.1 = true
  · simp [hran,assign]
  · rw [if_neg hran]
    simp only [Bool.not_eq_true] at hran
    by_cases hsub : job.1.subproc = 0
    · simp only [hsub,hran,bne_self_eq_false,Bool.false_eq_true,if_false,assign_append,
        assign_finding,decide_eq_true_eq,bne_iff_ne,true_and]
      by_cases hpost : 1 < job.2.postScriptCount
      · have hle : ¬ job.2.postScriptCount ≤ 1 := by omega
        simp only [hpost,hle,if_true,false_and,or_false,true_and]
        cases (a.allowDuplicates || a.allowGarbage) <;> rfl
      · have hle : job.2.postScriptCount ≤ 1 := by omega
        simp only [hpost,hle,if_false,false_and,false_or,true_and]
        by_cases hend : job.2.totalEndCount = 1
        · simp only [hend,ne_eq,not_true_eq_false,if_false,false_and,false_or,true_and]
          by_cases hsubmit : job.2.submitCount = 1
          · simp [hsubmit]
          · simp only [hsubmit,not_false_eq_true,if_true,true_and]
            cases toleratesFinalSubmits a job.2 <;> rfl
        · simp only [hend,ne_eq,not_false_eq_true,if_true,true_and,false_and,or_false]
          cases toleratesFinalEnds a job.2 <;> rfl
    · simp [hsub,assign]

variable {job : JobEntry}

private theorem not_leftWith_both {a : Allow} (h : LeftWith true a job) :
    ¬ LeftWith false a job := by
  intro h'
  rcases h.2.2 with ⟨hpost,ht⟩ | ⟨hpost,hend,ht⟩ | ⟨hpost,hend,hsubmit,ht⟩ <;>
  rcases h'.2.2 with ⟨hpost',hf⟩ | ⟨hpost',hend',hf⟩ | ⟨hpost',hend',hsubmit',hf⟩ <;>
  first | omega | contradiction | (rw [ht] at hf; exact absurd hf (by decide))

private theorem finalResult_eq (a : Allow) (job : JobEntry) :
    finalResult a job =
      if LeftWith true a job then .badEvent else if LeftWith false a job then .error else .okay :=
  assign_checkJobFinal a .okay job

private theorem finalResult_eq_badEvent {a : Allow} :
    finalResult a job = .badEvent ↔ LeftWith true a job := by
  rw [finalResult_eq]
  split
  · next h => simp [h]
  · next h => split <;> simp [h]

private theorem finalResult_eq_error {a : Allow} :
    finalResult a job = .error ↔ LeftWith false a job := by
  rw [finalResult_eq]
  split
  · next h => simp [not_leftWith_both h]
  · next h => split <;> simp_all

private theorem finalResult_cases (a : Allow) (job : JobEntry) :
    finalResult a job = .okay ∨ finalResult a job = .badEvent ∨ finalResult a job = .error := by
  rw [finalResult_eq]
  split
  · exact .inr (.inl rfl)
  · split
    · exact .inr (.inr rfl)
    · exact .inl rfl

private theorem checkNextJob_result (a : Allow) (r : Report) (job : JobEntry) :
    (checkNextJob a r job).result =
      if finalResult a job = .okay then r.result else finalResult a job := by
  have hkeep : ∀ m : CheckEventResult,
      (assign ⟨[],m⟩ (checkJobFinal a (idString job.1) job.2 job.1)).result =
        if finalResult a job = .okay then m else finalResult a job := by
    intro m
    rw [assign_checkJobFinal,finalResult_eq]
    split
    · rfl
    · split <;> rfl
  rw [← hkeep]
  unfold checkNextJob
  dsimp only
  generalize hfull : (if (!r.msgFull && decide (maxMsgLen < r.errorMsg.length)) = true then
      { r with errorMsg := r.errorMsg ++ cstr " ...",msgFull := true } else r) = r'
  have hresult : r'.result = r.result := by
    rw [← hfull]
    split <;> rfl
  rw [← hresult]
  split <;> rfl

private theorem worst_perm {a : Allow} {jobs order : List JobEntry} (h : order.Perm jobs) :
    worst a order = worst a jobs := by
  have : LeftCommutative (max : Nat → Nat → Nat) := ⟨fun x y z => by omega⟩
  unfold worst
  exact (h.map _).foldr_eq 0

private theorem foldl_checkNextJob_uniform {a : Allow} {v : CheckEventResult} {jobs : List JobEntry}
    (h : ∀ job ∈ jobs, finalResult a job = .okay ∨ finalResult a job = v) {r : Report}
    (hr : r.result = .okay ∨ r.result = v) :
    (jobs.foldl (checkNextJob a) r).result.severity = max r.result.severity (worst a jobs) := by
  induction jobs generalizing r with
  | nil => exact (Nat.max_zero _).symm
  | cons job jobs ih =>
    have hjob := h job mem_cons_self
    have hstep := checkNextJob_result a r job
    have hokay : CheckEventResult.okay.severity = 0 := rfl
    have hmax : (checkNextJob a r job).result.severity =
        max r.result.severity (finalResult a job).severity := by
      rw [hstep]
      rcases hjob with hjob | hjob
      · rw [if_pos hjob,hjob,hokay]
        omega
      · rcases hr with hr | hr
        · split
          · next he => rw [he,hokay,Nat.max_zero]
          · rw [hr,hokay,Nat.zero_max]
        · rw [hjob,hr]
          split <;> omega
    have hnext : (checkNextJob a r job).result = .okay ∨ (checkNextJob a r job).result = v := by
      rw [hstep]
      split
      · exact hr
      · exact hjob
    rw [foldl_cons,ih (fun j hj => h j (mem_cons_of_mem _ hj)) hnext,hmax]
    simp only [worst,map_cons,foldr_cons]
    omega

private theorem severity_le_worst {a : Allow} {jobs : List JobEntry} (h : job ∈ jobs) :
    (finalResult a job).severity ≤ worst a jobs := by
  induction jobs with
  | nil => simp at h
  | cons j jobs ih =>
    simp only [worst,map_cons,foldr_cons] at ih ⊢
    rcases List.mem_cons.mp h with rfl | h
    · omega
    · have := ih h
      omega

theorem reportsWorst_iff (a : Allow) (jobs : List JobEntry) :
    ReportsWorst a jobs ↔
      ¬ ∃ j ∈ jobs, ∃ k ∈ jobs, LeftWith false a j ∧ LeftWith true a k := by
  constructor
  · rintro h ⟨j,hj,k,hk,hfatal,hmild⟩
    obtain ⟨before,behind,rfl⟩ := append_of_mem hk
    have hperm : (before ++ behind ++ [k]).Perm (before ++ k :: behind) := by
      rw [append_assoc]
      exact (perm_append_singleton k behind).append_left before
    have hlast := h _ hperm
    rw [checkAllJobs,foldl_append,foldl_cons,foldl_nil,checkNextJob_result,
      finalResult_eq_badEvent.mpr hmild,if_neg (by decide)] at hlast
    have hle := severity_le_worst (a := a) hj
    rw [finalResult_eq_error.mpr hfatal,← hlast] at hle
    exact absurd hle (by decide)
  · intro hnot order hperm
    have huniform : ∃ v, ∀ job ∈ order, finalResult a job = .okay ∨ finalResult a job = v := by
      by_cases hmild : ∃ k ∈ jobs, LeftWith true a k
      · obtain ⟨k,hk,hleft⟩ := hmild
        refine ⟨.badEvent,fun job hjob => ?_⟩
        rcases finalResult_cases a job with h | h | h
        · exact .inl h
        · exact .inr h
        · exact absurd ⟨job,hperm.mem_iff.mp hjob,k,hk,finalResult_eq_error.mp h,hleft⟩ hnot
      · refine ⟨.error,fun job hjob => ?_⟩
        rcases finalResult_cases a job with h | h | h
        · exact .inl h
        · exact absurd ⟨job,hperm.mem_iff.mp hjob,finalResult_eq_badEvent.mp h⟩ hmild
        · exact .inr h
    obtain ⟨v,hv⟩ := huniform
    rw [checkAllJobs,foldl_checkNextJob_uniform hv (.inl rfl),worst_perm hperm]
    exact Nat.zero_max _

/-- A new `CheckEvents` that has been shown some events. -/
def after (a : Allow) (events : List ULogEvent) : Checker :=
  events.foldl (fun c e => (checkAnEvent c e).2) { allowEvents := a }

def tally (events : List ULogEvent) (id : CondorID) : JobInfo :=
  (events.filter fun e => e.id = id).foldl (fun info e => count e.eventNumber info) {}

private theorem tally_snoc (events : List ULogEvent) (e : ULogEvent) (id : CondorID) :
    tally (events ++ [e]) id =
      if e.id = id then count e.eventNumber (tally events id) else tally events id := by
  unfold tally
  rw [filter_append,foldl_append]
  by_cases h : e.id = id
  · simp [h]
  · simp [h]

private theorem tally_eq_new {events : List ULogEvent} {id : CondorID}
    (h : ¬ ∃ e ∈ events, e.id = id) : tally events id = {} := by
  have hfilter : events.filter (fun e => e.id = id) = [] := by simpa using h
  rw [tally,hfilter]
  rfl

private theorem isEquiv_id : KeyedList.IsEquiv fun a b : CondorID => a == b where
  refl a := beq_self_eq_true a
  comm a b := by rw [Bool.eq_iff_iff,beq_iff_eq,beq_iff_eq]; exact eq_comm
  trans a b c h := by rw [beq_iff_eq.mp h]

private theorem findings_eq (c : Checker) (e : ULogEvent) :
    (findings c e).1 =
      checkCounted c.allowEvents e (count e.eventNumber ((c.lookup e.id).getD {})) ∧
    (findings c e).2.allowEvents = c.allowEvents ∧
    ∀ id, (findings c e).2.lookup id =
      if e.id = id then some (count e.eventNumber ((c.lookup e.id).getD {})) else c.lookup id := by
  have hset : ∀ (c' : Checker) (info : JobInfo) (id : CondorID),
      (c'.setInfo e.id info).lookup id = if e.id = id then some info else c'.lookup id := by
    intro c' info id
    rw [Checker.lookup,Checker.setInfo,KeyedList.find_insert isEquiv_id,Checker.lookup]
    simp only [beq_iff_eq]
  cases hl : c.lookup e.id with
  | some info =>
    simp only [findings,hl,getD_some,true_and]
    exact ⟨rfl,hset c _⟩
  | none =>
    simp only [findings,Checker.insert,hl,map_some,getD_none,true_and]
    refine ⟨rfl,fun id => ?_⟩
    rw [hset]
    split
    · rfl
    · next hne =>
      rw [Checker.lookup,KeyedList.find_insert isEquiv_id,Checker.lookup]
      simp [hne]

private theorem after_snoc (a : Allow) (events : List ULogEvent) (e : ULogEvent) :
    after a (events ++ [e]) = (findings (after a events) e).2 := by
  rw [after,foldl_append]
  rfl

private theorem after_allowEvents (a : Allow) (events : List ULogEvent) :
    (after a events).allowEvents = a := by
  induction events using List.reverseRecOn with
  | nil => rfl
  | append_singleton events e ih => rw [after_snoc,(findings_eq _ e).2.1,ih]

private theorem lookup_after (a : Allow) (events : List ULogEvent) (id : CondorID) :
    (after a events).lookup id =
      if ∃ e ∈ events, e.id = id then some (tally events id) else none := by
  induction events using List.reverseRecOn with
  | nil => rfl
  | append_singleton events e ih =>
    rw [after_snoc,(findings_eq _ e).2.2,tally_snoc]
    by_cases h : e.id = id
    · have hex : ∃ e' ∈ events ++ [e], e'.id = id := ⟨e,by simp,h⟩
      rw [if_pos h,if_pos hex,if_pos h,h,ih]
      split
      · rfl
      · next hnone =>
        rw [tally_eq_new hnone]
        rfl
    · rw [if_neg h,if_neg h,ih]
      simp [h]

/-- The event is an error by one violation, which a later, tolerated one replaces. -/
def Relents (a : Allow) (e : ULogEvent) (info : JobInfo) : Prop :=
  match e.eventNumber with
  | .submit =>
    info.submitCount ≠ 1 ∧ a.allowDuplicates = false ∧
      info.totalEndCount ≠ 0 ∧ a.allowExecSubmit = true
  | .execute =>
    info.submitCount = 0 ∧ a.allowExecSubmit = false ∧ a.allowGarbage = false ∧
      info.totalEndCount ≠ 0 ∧ a.allowExtraRuns = true
  | .jobAborted | .jobTerminated =>
    info.submitCount = 0 ∧ a.allowExecSubmit = false ∧ a.allowGarbage = false ∧
      ((info.totalEndCount ≠ 1 ∧ toleratesEnds a info = true) ∨
       (info.postScriptCount ≠ 0 ∧ a.allowDuplicates = true))
  | .postScriptTerminated =>
    ranWithoutJob info e.id = false ∧ info.totalEndCount = 0 ∧ a.allowAlmostAll = false ∧
      1 < info.postScriptCount ∧ (a.allowDuplicates || a.allowGarbage) = true
  | .executableError | .other => False

theorem keepsWorst_append {l l' : List Finding} :
    KeepsWorst (l ++ l') ↔ KeepsWorst l ∧ KeepsWorst l' ∧
      ∀ f ∈ l, ∀ g ∈ l', f.result.severity ≤ g.result.severity := pairwise_append

theorem keepsWorst_checkJobEnd_iff (a : Allow) (idStr : CString) (info : JobInfo) :
    KeepsWorst (checkJobEnd a idStr info) ↔
      ¬ (info.submitCount = 0 ∧ a.allowExecSubmit = false ∧ a.allowGarbage = false ∧
        ((info.totalEndCount ≠ 1 ∧ toleratesEnds a info = true) ∨
         (info.postScriptCount ≠ 0 ∧ a.allowDuplicates = true))) := by
  have hdup : toleratesEnds a info = false → a.allowDuplicates = false := by
    intro h
    simp only [toleratesEnds,Bool.or_eq_false_iff] at h
    exact h.2
  rw [checkJobEnd,keepsWorst_append,keepsWorst_append]
  simp only [keepsWorst_finding,mem_append,true_and,or_imp,forall_and,
    finding_le_finding_iff .warning .badEvent rfl rfl,
    finding_le_finding_iff .badEvent .badEvent rfl rfl,decide_eq_true_eq,bne_iff_ne,
    Nat.lt_one_iff,Bool.or_eq_false_iff]
  constructor
  · rintro ⟨hend,hpost,-⟩ ⟨hsubmit,hexec,hgarbage,htolerated⟩
    rcases htolerated with ⟨hcount,ht⟩ | ⟨hcount,ht⟩
    · exact hend ⟨hsubmit,⟨hexec,by rw [hgarbage]; rfl⟩,hcount,ht⟩
    · exact hpost ⟨hsubmit,⟨hexec,by rw [hgarbage]; rfl⟩,hcount,ht⟩
  · intro hnot
    refine ⟨?_,?_,?_⟩
    · rintro ⟨hsubmit,⟨hexec,hgarbage⟩,hcount,ht⟩
      rw [hsubmit] at hgarbage
      exact hnot ⟨hsubmit,hexec,by simpa using hgarbage,.inl ⟨hcount,ht⟩⟩
    · rintro ⟨hsubmit,⟨hexec,hgarbage⟩,hcount,ht⟩
      rw [hsubmit] at hgarbage
      exact hnot ⟨hsubmit,hexec,by simpa using hgarbage,.inr ⟨hcount,ht⟩⟩
    · rintro ⟨-,hfatal,-,ht⟩
      exact absurd ht (by rw [hdup hfatal]; decide)

theorem keepsWorst_checkPostTerm_iff (a : Allow) (idStr : CString) (info : JobInfo)
    (id : CondorID) :
    KeepsWorst (checkPostTerm a idStr info id) ↔
      ¬ (ranWithoutJob info id = false ∧ info.totalEndCount = 0 ∧ a.allowAlmostAll = false ∧
        1 < info.postScriptCount ∧ (a.allowDuplicates || a.allowGarbage) = true) := by
  have halmost : a.allowAlmostAll = true → a.allowDuplicates = true := by
    intro h
    rw [Allow.allowDuplicates,show a.getLsbD 0 = true from h,Bool.true_or]
  rw [checkPostTerm]
  by_cases hran : ranWithoutJob info id = true
  · simp [hran,KeepsWorst]
  rw [if_neg hran,keepsWorst_append,keepsWorst_append]
  simp only [Bool.not_eq_true] at hran
  simp only [hran,keepsWorst_finding,mem_append,true_and,or_imp,forall_and,
    finding_le_finding_iff .badEvent .badEvent rfl rfl,decide_eq_true_eq,Nat.lt_one_iff,
    Bool.or_eq_false_iff]
  constructor
  · rintro ⟨-,-,hend⟩ hboth
    exact hend hboth
  · intro hnot
    refine ⟨?_,?_,hnot⟩
    · rintro ⟨-,⟨hdup,-⟩,-,ht⟩
      rw [halmost ht] at hdup
      exact absurd hdup (by decide)
    · rintro ⟨hsubmit,⟨hdup,hgarbage⟩,-,ht⟩
      rw [hsubmit] at hgarbage
      have hnone : a.allowGarbage = false := by simpa using hgarbage
      rw [hdup,hnone] at ht
      exact absurd ht (by decide)

theorem keepsWorst_iff (a : Allow) (e : ULogEvent) (info : JobInfo) :
    KeepsWorst (checkCounted a e info) ↔ ¬ Relents a e info := by
  unfold checkCounted Relents
  cases e.eventNumber with
  | submit =>
    dsimp only
    rw [checkJobSubmit,keepsWorst_append]
    simp only [keepsWorst_finding,true_and,
      finding_le_finding_iff .badEvent .badEvent rfl rfl,bne_iff_ne]
  | execute =>
    dsimp only
    rw [checkJobExecute,keepsWorst_append]
    simp only [keepsWorst_finding,true_and,
      finding_le_finding_iff .warning .badEvent rfl rfl,bne_iff_ne,
      decide_eq_true_eq,Nat.lt_one_iff,Bool.or_eq_false_iff,and_assoc]
  | jobAborted | jobTerminated => exact keepsWorst_checkJobEnd_iff a _ info
  | postScriptTerminated => exact keepsWorst_checkPostTerm_iff a _ info e.id
  | executableError | other => simp [KeepsWorst]

/-- The check of all jobs reports the worst of them in every order, and the check of no event
replaces a result by a less severe one. -/
def ReportsSevere (a : Allow) (events : List ULogEvent) : Prop :=
  ReportsWorst a (after a events).jobHash ∧
    ∀ earlier e later, events = earlier ++ e :: later →
      KeepsWorst (findings (after a earlier) e).1

/-- They keep it unless the last violation of one job is tolerated and that of another is not, or
an event relents. -/
theorem reportsSevere_iff (a : Allow) (events : List ULogEvent) :
    ReportsSevere a events ↔
      (¬ ∃ j ∈ (after a events).jobHash, ∃ k ∈ (after a events).jobHash,
        LeftWith false a j ∧ LeftWith true a k) ∧
      ∀ earlier e later, events = earlier ++ e :: later →
        ¬ Relents a e (count e.eventNumber (tally earlier e.id)) := by
  have hinfo : ∀ earlier : List ULogEvent, ∀ e : ULogEvent,
      ((after a earlier).lookup e.id).getD {} = tally earlier e.id := by
    intro earlier e
    rw [lookup_after]
    split
    · rfl
    · next hnone => exact (tally_eq_new hnone).symm
  rw [ReportsSevere,reportsWorst_iff]
  refine and_congr_right' (forall₄_congr fun earlier e later _ => ?_)
  rw [(findings_eq _ e).1,after_allowEvents,hinfo,keepsWorst_iff]

def dagmanAllows : Allow := 114

def firstJob : CondorID := ⟨1,0,0⟩

def secondJob : CondorID := ⟨2,0,0⟩

def twiceSubmitted : List ULogEvent :=
  [⟨.submit,firstJob⟩,⟨.submit,firstJob⟩,⟨.jobTerminated,firstJob⟩,
    ⟨.submit,secondJob⟩,⟨.jobTerminated,secondJob⟩,⟨.jobTerminated,secondJob⟩]

/-- The job that ended twice hides the error of the other if it is visited last. -/
theorem error_hidden_by_later_job :
    ¬ ∀ (a : Allow) (events : List ULogEvent), ReportsSevere a events := by
  intro hall
  have h := (hall dagmanAllows twiceSubmitted).1 _ (List.Perm.refl _)
  exact absurd h (by decide)

end Condor.CheckEvents
