import Condor.Schedd.ProcId

/-!
# The negotiation of a schedd

`ScheddNegotiate` offers the jobs of a list of auto clusters. A message of the negotiator asks for
the current job, rejects it with its auto cluster, or brings a match.
-/

namespace Condor.Schedd.Negotiate

open List

variable {Ad : Type}

/-- What the schedd says about its jobs during one message. -/
structure Answers (Ad : Type) where
  skipJob : ProcId → Bool
  getJobAd : ProcId → Option Ad

inductive Outcome (Ad : Type) where
  | current (ad : Ad)
  | skipped
  | noAd

inductive Event (Ad : Type) where
  | popped (auto : Int) (id : ProcId) (outcome : Outcome Ad)
  | exhausted
  | rejected (auto : Int)
  | answered (id : ProcId)
  | sent (id : ProcId) (ad : Option Ad)
  | noMoreJobs

structure ScheddNegotiate (Ad : Type) where
  jobs : List (Int × List ProcId)
  rejectedAutoClusters : List Int
  currentJobId : ProcId
  currentAutoClusterId : Int
  currentJobAd : Option Ad
  jobsRejected : Nat
  finished : Bool

/-- One turn of the loop in `Scheduler::negotiate`: a new cluster if the last one has another id. -/
def addJob : List (Int × List ProcId) → Int × ProcId → List (Int × List ProcId)
  | [], job => [(job.1,[job.2])]
  | [cluster], job =>
    if cluster.1 ≠ job.1 then [cluster,(job.1,[job.2])] else [(cluster.1,cluster.2 ++ [job.2])]
  | cluster :: cluster' :: rest, job => cluster :: addJob (cluster' :: rest) job

def requestList (jobs : List (Int × ProcId)) : List (Int × List ProcId) := jobs.foldl addJob []

def new (jobs : List (Int × ProcId)) : ScheddNegotiate Ad :=
  ⟨requestList jobs,[],⟨-1,-1⟩,-1,none,0,false⟩

def popJobs (A : Answers Ad) (auto : Int) :
    List ProcId → List (Event Ad) × Option (Int × ProcId × Ad) × List ProcId
  | [] => ([],none,[])
  | id :: ids =>
    if A.skipJob id then
      let (es,found,rest) := popJobs A auto ids
      (.popped auto id .skipped :: es,found,rest)
    else match A.getJobAd id with
      | none =>
        let (es,found,rest) := popJobs A auto ids
        (.popped auto id .noAd :: es,found,rest)
      | some ad => ([.popped auto id (.current ad)],some (auto,id,ad),ids)

def nextLoop (A : Answers Ad) (rejected : List Int) : List (Int × List ProcId) →
    List (Event Ad) × Option (Int × ProcId × Ad) × List (Int × List ProcId)
  | [] => ([],none,[])
  | (auto,ids) :: jobs =>
    if auto ∈ rejected then nextLoop A rejected jobs
    else match popJobs A auto ids with
      | (es,some found,rest) => (es,some found,(auto,rest) :: jobs)
      | (es,none,_) =>
        let (es',found,jobs') := nextLoop A rejected jobs
        (es ++ es',found,jobs')

def nextJob (A : Answers Ad) (s : ScheddNegotiate Ad) :
    Bool × ScheddNegotiate Ad × List (Event Ad) :=
  match nextLoop A s.rejectedAutoClusters s.jobs with
  | (es,some (auto,id,ad),jobs) =>
    (true,{ s with
      jobs := jobs
      currentAutoClusterId := auto
      currentJobId := id
      currentJobAd := some ad },es)
  | (es,none,jobs) =>
    (false,{ s with
      jobs := jobs
      currentAutoClusterId := -1
      currentJobId := ⟨-1,-1⟩ },es ++ [.exhausted])

/-- A failure to talk to the negotiator ends the negotiation, too. -/
def talk (talks : Bool) (e : Event Ad) (s : ScheddNegotiate Ad) :
    ScheddNegotiate Ad × List (Event Ad) :=
  if talks then (s,[e]) else ({ s with finished := true },[])

def sendJobInfo (A : Answers Ad) (talks : Bool) (s : ScheddNegotiate Ad) :
    ScheddNegotiate Ad × List (Event Ad) :=
  if s.currentJobId.cluster = -1 then
    match nextJob A s with
    | (false,s',es) =>
      let (s'',es') := talk talks .noMoreJobs s'
      ({ s'' with finished := true },es ++ es')
    | (true,s',es) =>
      let (s'',es') := talk talks (.sent s'.currentJobId s'.currentJobAd) s'
      (s'',es ++ es')
  else talk talks (.sent s.currentJobId s.currentJobAd) s

/-- The operations of the negotiator. Whatever becomes of a match, the next job follows. -/
inductive Message where
  | sendJobInfo (talks : Bool)
  | rejected
  | permissionAndAd
  | endNegotiate

def messageReceived (A : Answers Ad) (s : ScheddNegotiate Ad) :
    Message → ScheddNegotiate Ad × List (Event Ad)
  | .sendJobInfo talks => sendJobInfo A talks s
  | .rejected =>
    let (_,s',es) := nextJob A { s with
      jobsRejected := s.jobsRejected + 1
      rejectedAutoClusters := s.currentAutoClusterId :: s.rejectedAutoClusters }
    (s',.answered s.currentJobId :: .rejected s.currentAutoClusterId :: es)
  | .permissionAndAd =>
    let (_,s',es) := nextJob A s
    (s',.answered s.currentJobId :: es)
  | .endNegotiate => ({ s with finished := true },[])

/-- A message is received while the negotiation is not finished; the events are recorded. -/
def receive (x : ScheddNegotiate Ad × List (Event Ad)) (m : Answers Ad × Message) :
    ScheddNegotiate Ad × List (Event Ad) :=
  if x.1.finished then x
  else
    let (s,es) := messageReceived m.1 x.1 m.2
    (s,x.2 ++ es)

def negotiate (jobs : List (Int × ProcId)) (ms : List (Answers Ad × Message)) :
    ScheddNegotiate Ad × List (Event Ad) :=
  ms.foldl receive (new jobs,[])

def getSatisfaction (A : Answers Ad) (s : ScheddNegotiate Ad) : Bool × List (Event Ad) :=
  if s.jobsRejected > 0 then (false,[])
  else if s.currentJobId.cluster = -1 then
    let (_,s',es) := nextJob A s
    (s'.currentJobId.cluster = -1,es)
  else (false,[])

def popped (es : List (Event Ad)) : List (Int × ProcId) :=
  es.filterMap fun | .popped auto id _ => some (auto,id) | _ => none

def madeCurrent (es : List (Event Ad)) : List (Int × ProcId) :=
  es.filterMap fun | .popped auto id (.current _) => some (auto,id) | _ => none

/-- The current job behind some events, with its ad. -/
def openJob : Option (Int × ProcId × Ad) → List (Event Ad) → Option (Int × ProcId × Ad)
  | job, [] => job
  | _, .popped auto id (.current ad) :: es => openJob (some (auto,id,ad)) es
  | _, .exhausted :: es => openJob none es
  | job, _ :: es => openJob job es

/-- Each event meets a condition on it and the events before it. -/
def EachAt (P : List (Event Ad) → Event Ad → Prop) : List (Event Ad) → List (Event Ad) → Prop
  | _, [] => True
  | past, e :: es => P past e ∧ EachAt P (past ++ [e]) es

/-- No job of a rejected auto cluster becomes current, what is sent is the current job with the ad
that `getJobAd` gave for it, and the end is announced when no job is left. -/
def Fair (jobs : List (Int × ProcId)) (past : List (Event Ad)) : Event Ad → Prop
  | .popped auto _ (.current _) => .rejected auto ∉ past
  | .sent id ad => ∃ auto ad', openJob none past = some (auto,id,ad') ∧ ad = some ad'
  | .noMoreJobs => ∀ job ∈ jobs, job ∈ popped past ∨ .rejected job.1 ∈ past
  | _ => True

def left (jobs : List (Int × List ProcId)) : List (Int × ProcId) :=
  jobs.flatMap fun c => c.2.map fun id => (c.1,id)

def Event.quiet : Event Ad → Bool
  | .popped _ _ .skipped => true
  | .popped _ _ .noAd => true
  | _ => false

def Quiet (es : List (Event Ad)) : Prop := ∀ e ∈ es, e.quiet = true

section

variable {l : List (Int × ProcId)} {es es' : List (Event Ad)}

@[simp] theorem popped_append : popped (es ++ es') = popped es ++ popped es' :=
  filterMap_append

@[simp] theorem madeCurrent_append : madeCurrent (es ++ es') = madeCurrent es ++ madeCurrent es' :=
  filterMap_append

theorem openJob_append (job : Option (Int × ProcId × Ad)) :
    openJob job (es ++ es') = openJob (openJob job es) es' := by
  induction es generalizing job with
  | nil => rfl
  | cons e es ih => rcases e with ⟨_,_,_ | _ | _⟩ | _ | _ | _ | _ | _ <;> exact ih _

theorem eachAt_append {P : List (Event Ad) → Event Ad → Prop} (past : List (Event Ad)) :
    EachAt P past (es ++ es') ↔ EachAt P past es ∧ EachAt P (past ++ es) es' := by
  induction es generalizing past with
  | nil => simp [EachAt]
  | cons e es ih => simp only [cons_append,EachAt,ih,append_assoc,and_assoc]; rfl

private theorem madeCurrent_sublist : (madeCurrent es).Sublist (popped es) := by
  induction es with
  | nil => exact List.Sublist.refl _
  | cons e es ih =>
    rcases e with ⟨a,id,_ | _ | _⟩ | _ | _ | _ | _ | _
    · exact ih.cons_cons (a,id)
    all_goals first | exact ih.cons (a,id) | exact ih

theorem Quiet.cases (h : Quiet es) : madeCurrent es = [] ∧ (∀ job, openJob job es = job) ∧
    (∀ a, .rejected a ∉ es) ∧ (∀ id, .answered id ∉ es) ∧ ∀ past, EachAt (Fair l) past es := by
  induction es with
  | nil => simp [madeCurrent,openJob,EachAt]
  | cons e es ih =>
    obtain ⟨he,hes⟩ := List.forall_mem_cons.mp h
    obtain ⟨h1,h2,h3,h4,h5⟩ := ih hes
    rcases e with ⟨a,id,_ | _ | _⟩ | _ | _ | _ | _ | _ <;> simp only [Event.quiet] at he <;>
      first | contradiction | exact ⟨h1,h2,by simpa using h3,by simpa using h4,
        fun past => ⟨trivial,h5 _⟩⟩

end

private theorem left_addJob (jobs : List (Int × List ProcId)) (job : Int × ProcId) :
    left (addJob jobs job) = left jobs ++ [job] := by
  induction jobs, job using addJob.induct with
  | case1 job => simp [addJob,left]
  | case2 job cluster h => simp [addJob,left,h]
  | case3 job cluster h => simp [addJob,left,not_not.mp h]
  | case4 job c c' rest ih =>
    rw [addJob]
    simpa [left] using ih

private theorem left_requestList (jobs : List (Int × ProcId)) : left (requestList jobs) = jobs := by
  induction jobs using List.reverseRecOn with
  | nil => rfl
  | append_singleton jobs job ih =>
    rw [requestList,foldl_append,foldl_cons,foldl_nil,left_addJob]
    exact congrArg (· ++ [job]) ih

def Found (es : List (Event Ad)) : Option (Int × ProcId × Ad) → Prop
  | none => Quiet es
  | some (auto,id,ad) => ∃ before, es = before ++ [.popped auto id (.current ad)] ∧ Quiet before

theorem Found.cons {es : List (Event Ad)} {found : Option (Int × ProcId × Ad)} (h : Found es found)
    {before : List (Event Ad)} (hb : Quiet before) : Found (before ++ es) found := by
  have hquiet : ∀ {es' : List (Event Ad)}, Quiet es' → Quiet (before ++ es') := fun h e he =>
    (List.mem_append.mp he).elim (hb e) (h e)
  rcases found with _ | ⟨auto,id,ad⟩
  · exact hquiet h
  · obtain ⟨before',rfl,hq⟩ := h
    exact ⟨before ++ before',(append_assoc ..).symm,hquiet hq⟩

private theorem popJobs_spec (A : Answers Ad) (auto : Int) (ids : List ProcId) :
    ids.map (auto,·) = popped (popJobs A auto ids).1 ++ (popJobs A auto ids).2.2.map (auto,·) ∧
      Found (popJobs A auto ids).1 (popJobs A auto ids).2.1 ∧
      ((popJobs A auto ids).2.1 = none → (popJobs A auto ids).2.2 = []) ∧
      ∀ x ∈ (popJobs A auto ids).2.1, x.1 = auto := by
  induction ids with
  | nil => simp [popJobs,popped,Found,Quiet]
  | cons id ids ih =>
    obtain ⟨h1,h2,h3,h4⟩ := ih
    have hquiet : ∀ e : Event Ad, e.quiet = true → Quiet [e] := fun e he => by
      simpa [Quiet] using he
    rw [popJobs]
    split_ifs with hskip
    · exact ⟨congrArg (List.cons (auto,id)) h1,h2.cons (hquiet (.popped auto id .skipped) rfl),
        h3,h4⟩
    · rcases A.getJobAd id with _ | ad
      · exact ⟨congrArg (List.cons (auto,id)) h1,h2.cons (hquiet (.popped auto id .noAd) rfl),
          h3,h4⟩
      · exact ⟨rfl,⟨[],rfl,by simp [Quiet]⟩,by simp,by simp⟩

private theorem nextLoop_spec (A : Answers Ad) (R : List Int) (jobs : List (Int × List ProcId)) :
    (∃ passed, left jobs = passed ++ left (nextLoop A R jobs).2.2 ∧
      (popped (nextLoop A R jobs).1).Sublist passed ∧
      ∀ x ∈ passed, x ∈ popped (nextLoop A R jobs).1 ∨ x.1 ∈ R) ∧
    Found (nextLoop A R jobs).1 (nextLoop A R jobs).2.1 ∧
    ((nextLoop A R jobs).2.1 = none → (nextLoop A R jobs).2.2 = []) ∧
    ∀ x ∈ (nextLoop A R jobs).2.1, x.1 ∉ R := by
  induction jobs with
  | nil => exact ⟨⟨[],by simp [nextLoop,popped]⟩,by simp [nextLoop,Found,Quiet],by simp [nextLoop],
      by simp [nextLoop]⟩
  | cons c jobs ih =>
    obtain ⟨⟨passed,hleft,hsub,hfate⟩,hfound,hnone,hnot⟩ := ih
    obtain ⟨auto,ids⟩ := c
    have hcons : ∀ (ids : List ProcId) (jobs : List (Int × List ProcId)),
        left ((auto,ids) :: jobs) = ids.map (auto,·) ++ left jobs := fun _ _ => rfl
    rw [nextLoop]
    split_ifs with hr
    · refine ⟨⟨ids.map (auto,·) ++ passed,?_,hsub.trans (sublist_append_right _ _),?_⟩,
        hfound,hnone,hnot⟩
      · rw [hcons,hleft,append_assoc]
      · intro x hx
        rcases List.mem_append.mp hx with hx | hx
        · obtain ⟨id,-,rfl⟩ := List.mem_map.mp hx
          exact .inr hr
        · exact hfate x hx
    · obtain ⟨h1,h2,h3,h4⟩ := popJobs_spec A auto ids
      rcases hp : popJobs A auto ids with ⟨es,_ | found,rest⟩ <;> rw [hp] at h1 h2 h3 h4
      · obtain rfl := h3 rfl
        refine ⟨⟨popped es ++ passed,?_,?_,fun x hx => ?_⟩,hfound.cons h2,hnone,hnot⟩
        · rw [hcons,h1,hleft]
          simp
        · rw [popped_append]
          exact (List.Sublist.refl _).append hsub
        · rw [popped_append,mem_append]
          rcases List.mem_append.mp hx with hx | hx
          · exact .inl (.inl hx)
          · exact (hfate x hx).imp_left .inr
      · refine ⟨⟨popped es,?_,List.Sublist.refl _,fun x hx => .inl hx⟩,h2,by simp,?_⟩
        · rw [hcons,h1,hcons,append_assoc]
        · intro x hx
          rw [h4 x hx]
          exact hr

/-- What the events so far say about the state, the current job apart. -/
structure Recorded (l : List (Int × ProcId)) (s : ScheddNegotiate Ad) (es : List (Event Ad)) :
    Prop where
  split : ∃ passed, l = passed ++ left s.jobs ∧ (popped es).Sublist passed ∧
    ∀ x ∈ passed, x ∈ popped es ∨ .rejected x.1 ∈ es
  rejects : ∀ a, a ∈ s.rejectedAutoClusters ↔ .rejected a ∈ es
  count : s.jobsRejected = 0 ↔ ∀ a, .rejected a ∉ es
  fair : EachAt (Fair l) [] es
  answers : ∀ id, .answered id ∈ es → id.cluster = -1 ∨ id ∈ (popped es).map Prod.snd

def Settled (es : List (Event Ad)) : Prop := ∀ x ∈ madeCurrent es, .answered x.2 ∈ es

def Current (s : ScheddNegotiate Ad) (es : List (Event Ad)) : Option (Int × ProcId × Ad) → Prop
  | none => s.currentJobId.cluster = -1 ∧ Settled es
  | some (auto,id,ad) => s.currentJobId = id ∧ s.currentJobAd = some ad ∧ .answered id ∉ es ∧
      (auto,id) ∈ madeCurrent es ∧ ∀ x ∈ madeCurrent es, x.2 = id ∨ .answered x.2 ∈ es

structure Negotiated (l : List (Int × ProcId)) (s : ScheddNegotiate Ad) (es : List (Event Ad)) :
    Prop where
  recorded : Recorded l s es
  current : Current s es (openJob none es)

section

variable {l : List (Int × ProcId)} {s : ScheddNegotiate Ad} {es : List (Event Ad)}

structure JobArray (l : List (Int × ProcId)) : Prop where
  distinct : (l.map Prod.snd).Nodup
  cluster : ∀ x ∈ l, x.2.cluster ≠ -1

theorem Recorded.mem (h : Recorded l s es) {x : Int × ProcId} (hx : x ∈ popped es) : x ∈ l := by
  obtain ⟨passed,rfl,hsub,-⟩ := h.split
  exact mem_append_left _ (hsub.subset hx)

theorem Recorded.extend (h : Recorded l s es) {s' : ScheddNegotiate Ad} {es' : List (Event Ad)}
    (hjobs : ∃ passed, left s.jobs = passed ++ left s'.jobs ∧ (popped es').Sublist passed ∧
      ∀ x ∈ passed, x ∈ popped es' ∨ x.1 ∈ s.rejectedAutoClusters)
    (hr : s'.rejectedAutoClusters = s.rejectedAutoClusters)
    (hc : s'.jobsRejected = s.jobsRejected) (hrej : ∀ a, .rejected a ∉ es')
    (hans : ∀ id, .answered id ∉ es') (hfair : EachAt (Fair l) es es') :
    Recorded l s' (es ++ es') := by
  obtain ⟨passed,rfl,hsub,hfate⟩ := h.split
  obtain ⟨passed',hleft,hsub',hfate'⟩ := hjobs
  have hrejected : ∀ a, Event.rejected a ∈ es ++ es' ↔ Event.rejected a ∈ es := fun a => by
    simp [hrej a]
  refine ⟨⟨passed ++ passed',by rw [hleft,append_assoc],?_,fun x hx => ?_⟩,
    fun a => by rw [hr,h.rejects,hrejected],by rw [hc,h.count]; simp only [hrejected],
    (eachAt_append []).mpr ⟨h.fair,hfair⟩,fun id hid => ?_⟩
  · rw [popped_append]
    exact hsub.append hsub'
  · rw [popped_append,mem_append,hrejected]
    rcases List.mem_append.mp hx with hx | hx
    · exact (hfate x hx).imp_left .inl
    · exact (hfate' x hx).imp .inr (h.rejects _).mp
  · refine (h.answers id ((List.mem_append.mp hid).resolve_right (hans id))).imp_right fun hm => ?_
    rw [popped_append,map_append]
    exact mem_append_left _ hm

/-- A job that is still in the list has not been answered. -/
theorem Recorded.unanswered (hl : JobArray l) (h : Recorded l s es) {x : Int × ProcId}
    (hx : x ∈ left s.jobs) : .answered x.2 ∉ es ∧ x.2 ∉ (popped es).map Prod.snd := by
  obtain ⟨passed,rfl,hsub,-⟩ := h.split
  have hd := hl.distinct
  rw [map_append,nodup_append] at hd
  have hnot : x.2 ∉ (popped es).map Prod.snd := fun hm =>
    hd.2.2 _ ((hsub.map Prod.snd).subset hm) _ (mem_map_of_mem hx) rfl
  exact ⟨fun ha => (h.answers _ ha).elim (hl.cluster x (mem_append_right _ hx)) hnot,hnot⟩

/-- What `nextJob` makes of a state in which all jobs so far are answered. -/
theorem Recorded.nextJob (hl : JobArray l) (h : Recorded l s es) (hs : Settled es)
    (A : Answers Ad) :
    Negotiated l (nextJob A s).2.1 (es ++ (nextJob A s).2.2) ∧
      (nextJob A s).2.1.jobsRejected = s.jobsRejected ∧
      (popped (nextJob A s).2.2).Sublist (left s.jobs) ∧
      match (nextJob A s).1 with
      | false => (nextJob A s).2.1.jobs = [] ∧ (nextJob A s).2.1.currentJobId.cluster = -1 ∧
          madeCurrent (nextJob A s).2.2 = []
      | true => ∃ x ∈ left s.jobs, (nextJob A s).2.1.currentJobId = x.2 ∧
          x ∈ madeCurrent (nextJob A s).2.2 := by
  obtain ⟨⟨passed',hleft,hsub',hfate'⟩,hfound,hnone,hnot⟩ :=
    nextLoop_spec A s.rejectedAutoClusters s.jobs
  have hpassed : passed'.Sublist (left s.jobs) := hleft ▸ sublist_append_left _ _
  rw [Negotiate.nextJob]
  rcases hn : nextLoop A s.rejectedAutoClusters s.jobs with ⟨es',_ | ⟨a,id,ad⟩,jobs'⟩ <;>
    rw [hn] at hleft hsub' hfate' hfound hnone hnot <;> dsimp only at *
  · obtain ⟨h1,h2,h3,h4,h5⟩ := Quiet.cases (l := l) hfound
    have hpop : popped (es' ++ [Event.exhausted]) = popped es' := by simp [popped]
    have hmade : madeCurrent (es' ++ [Event.exhausted]) = [] := by
      rw [madeCurrent_append,h1]
      rfl
    refine ⟨⟨h.extend ⟨passed',hleft,by rwa [hpop],by rwa [hpop]⟩ rfl rfl (by simpa using h3)
      (by simpa using h4) ((eachAt_append es).mpr ⟨h5 es,trivial,trivial⟩),?_⟩,rfl,
      by rw [hpop]; exact hsub'.trans hpassed,hnone rfl,rfl,hmade⟩
    rw [← append_assoc,openJob_append]
    refine ⟨rfl,fun x hx => ?_⟩
    rw [append_assoc,madeCurrent_append,hmade,append_nil] at hx
    rw [append_assoc]
    exact mem_append_left _ (hs x hx)
  · obtain ⟨before,rfl,hq⟩ := hfound
    obtain ⟨h1,h2,h3,h4,h5⟩ := Quiet.cases (l := l) hq
    have hmem : (a,id) ∈ left s.jobs := hpassed.subset (hsub'.subset (by simp [popped]))
    have hbar : Event.rejected a ∉ es ++ before := by
      rw [mem_append,not_or,← h.rejects]
      exact ⟨hnot _ rfl,h3 a⟩
    have hmade : madeCurrent (before ++ [Event.popped a id (.current ad)]) = [(a,id)] := by
      rw [madeCurrent_append,h1]
      rfl
    refine ⟨⟨h.extend ⟨passed',hleft,hsub',hfate'⟩ rfl rfl (by simpa using h3)
      (by simpa using h4) ((eachAt_append es).mpr ⟨h5 es,hbar,trivial⟩),?_⟩,rfl,
      hsub'.trans hpassed,_,hmem,rfl,by simp [hmade]⟩
    rw [← append_assoc,openJob_append]
    refine ⟨rfl,rfl,?_,?_,fun x hx => ?_⟩
    · simpa [h4 id] using (h.unanswered hl hmem).1
    · rw [append_assoc,madeCurrent_append,hmade]
      simp
    · rw [append_assoc,madeCurrent_append,hmade] at hx
      rcases List.mem_append.mp hx with hx | hx
      · rw [append_assoc]
        exact .inr (mem_append_left _ (hs x hx))
      · exact .inl (by rw [List.mem_singleton.mp hx])

theorem Negotiated.settled (h : Negotiated l s es) :
    Settled (es ++ [.answered s.currentJobId]) := by
  intro x hx
  have hc := h.current
  simp only [madeCurrent_append,show madeCurrent [(.answered s.currentJobId : Event Ad)] = []
    from rfl,append_nil] at hx
  rw [mem_append]
  rcases ho : openJob none es with _ | ⟨a,id,ad⟩ <;> rw [ho] at hc
  · exact .inl (hc.2 x hx)
  · obtain ⟨hid,-,-,-,hall⟩ := hc
    exact (hall x hx).symm.imp_right fun h => by rw [h,hid]; exact mem_singleton_self _

/-- The current job is answered. -/
theorem Negotiated.answer (h : Negotiated l s es) :
    Recorded l s (es ++ [.answered s.currentJobId]) := by
  have hpop : popped (es ++ [Event.answered s.currentJobId]) = popped es := by simp [popped]
  have hrej : ∀ a, Event.rejected a ∈ es ++ [Event.answered s.currentJobId] ↔
      Event.rejected a ∈ es := by simp
  obtain ⟨hsplit,hr,hcount,hfair,hans⟩ := h.recorded
  refine ⟨by simpa only [hpop,hrej] using hsplit,by simpa only [hrej] using hr,
    by simpa only [hrej] using hcount,(eachAt_append []).mpr ⟨hfair,trivial,trivial⟩,
    fun id hid => ?_⟩
  rw [hpop]
  rcases List.mem_append.mp hid with hid | hid
  · exact hans id hid
  obtain rfl : id = s.currentJobId := by simpa using hid
  have hc := h.current
  rcases ho : openJob none es with _ | ⟨a,id,ad⟩ <;> rw [ho] at hc
  · exact .inl hc.1
  · obtain ⟨hid,-,-,hmem,-⟩ := hc
    exact .inr (hid ▸ mem_map_of_mem (madeCurrent_sublist.subset hmem))

private theorem Recorded.reject (h : Recorded l s es) (a : Int) :
    Recorded l { s with
      jobsRejected := s.jobsRejected + 1
      rejectedAutoClusters := a :: s.rejectedAutoClusters } (es ++ [.rejected a]) := by
  obtain ⟨⟨passed,hl,hsub,hfate⟩,hr,hcount,hfair,hans⟩ := h
  have hpop : popped (es ++ [Event.rejected a]) = popped es := by simp [popped]
  refine ⟨⟨passed,hl,by rwa [hpop],fun x hx => ?_⟩,fun b => ?_,?_,
    (eachAt_append []).mpr ⟨hfair,trivial,trivial⟩,by simpa only [hpop,mem_append,
      mem_singleton,reduceCtorEq,or_false] using hans⟩
  · rw [hpop]
    exact (hfate x hx).imp_right (mem_append_left _)
  · rw [mem_cons,hr]
    simp [or_comm]
  · exact iff_of_false (by simp) fun hno => hno a (by simp)

/-- An event that only reports. -/
theorem Negotiated.report (h : Negotiated l s es) {e : Event Ad} (hp : popped [e] = [])
    (hm : madeCurrent [e] = []) (ho : ∀ job, openJob job [e] = job) (hr : ∀ a, e ≠ .rejected a)
    (ha : ∀ id, e ≠ .answered id) (hf : Fair l es e) (s' : ScheddNegotiate Ad)
    (hs : s' = { s with finished := s'.finished }) : Negotiated l s' (es ++ [e]) := by
  rw [hs]
  refine ⟨h.recorded.extend ⟨[],rfl,by rw [hp],by simp⟩ rfl rfl
    (fun a => by simpa using (hr a).symm) (fun id => by simpa using (ha id).symm) ⟨hf,trivial⟩,?_⟩
  have hc := h.current
  have hans : ∀ id, Event.answered id ∈ es ++ [e] ↔ Event.answered id ∈ es := fun id => by
    simp [(ha id).symm]
  rw [openJob_append,ho]
  rcases hopen : openJob none es with _ | ⟨a,id,ad⟩ <;> rw [hopen] at hc
  · simpa only [Current,Settled,madeCurrent_append,hm,append_nil,hans] using hc
  · simpa only [Current,madeCurrent_append,hm,append_nil,hans] using hc

theorem Negotiated.finish (h : Negotiated l s es) : Negotiated l { s with finished := true } es :=
  ⟨⟨h.recorded.split,h.recorded.rejects,h.recorded.count,h.recorded.fair,h.recorded.answers⟩,
    h.current⟩

private theorem Negotiated.settled_of_none (hl : JobArray l) (h : Negotiated l s es)
    (hc : s.currentJobId.cluster = -1) : Settled es := by
  have hcur := h.current
  rcases ho : openJob none es with _ | ⟨a,id,ad⟩ <;> rw [ho] at hcur
  · exact hcur.2
  · obtain ⟨rfl,-,-,hmem,-⟩ := hcur
    exact absurd hc (hl.cluster _ (h.recorded.mem (madeCurrent_sublist.subset hmem)))

private theorem Negotiated.sendCurrent (h : Negotiated l s es) (hc : s.currentJobId.cluster ≠ -1)
    (talks : Bool) :
    Negotiated l (talk talks (.sent s.currentJobId s.currentJobAd) s).1
      (es ++ (talk talks (.sent s.currentJobId s.currentJobAd) s).2) := by
  have hcur := h.current
  rcases ho : openJob none es with _ | ⟨a,id,ad⟩ <;> rw [ho] at hcur
  · exact absurd hcur.1 hc
  cases talks
  · simpa [talk] using h.finish
  · obtain ⟨hid,had,-⟩ := hcur
    exact h.report rfl rfl (fun _ => rfl) (by simp) (by simp)
      (show Fair l es (.sent _ _) from ⟨a,ad,hid ▸ ho,had⟩) s rfl

theorem Negotiated.message (hl : JobArray l) (h : Negotiated l s es) (A : Answers Ad)
    (m : Message) : Negotiated l (messageReceived A s m).1 (es ++ (messageReceived A s m).2) := by
  cases m with
  | sendJobInfo talks =>
    rw [messageReceived,sendJobInfo]
    split_ifs with hc
    · obtain ⟨hn,-,-,hb⟩ := h.recorded.nextJob hl (h.settled_of_none hl hc) A
      rcases hnj : nextJob A s with ⟨_ | _,s',es'⟩ <;> rw [hnj] at hn hb <;>
        dsimp only at hn hb ⊢
      · cases talks
        · simpa [talk] using hn.finish
        · obtain ⟨passed,hl',-,hfate⟩ := hn.recorded.split
          rw [hb.1,show left [] = [] from rfl,append_nil] at hl'
          subst hl'
          rw [← append_assoc]
          exact hn.report rfl rfl (fun _ => rfl) (by simp) (by simp)
            (show Fair l _ .noMoreJobs from hfate) _ rfl
      · obtain ⟨x,hx,hcur,hmade⟩ := hb
        have hmem := hn.recorded.mem (madeCurrent_sublist.subset
          (by rw [madeCurrent_append]; exact mem_append_right _ hmade))
        rw [← append_assoc]
        exact hn.sendCurrent (hcur ▸ hl.cluster x hmem) talks
    · exact h.sendCurrent hc talks
  | rejected =>
    have hs : Settled (es ++ [.answered s.currentJobId] ++ [.rejected s.currentAutoClusterId]) := by
      intro x hx
      rw [madeCurrent_append] at hx
      exact mem_append_left _ (h.settled x (by simpa [madeCurrent] using hx))
    have := ((h.answer.reject s.currentAutoClusterId).nextJob hl hs A).1
    rw [append_assoc,append_assoc] at this
    exact this
  | permissionAndAd =>
    have := (h.answer.nextJob hl h.settled A).1
    rw [append_assoc] at this
    exact this
  | endNegotiate => simpa [messageReceived] using h.finish

private theorem negotiated_new (l : List (Int × ProcId)) :
    Negotiated l (new l : ScheddNegotiate Ad) [] :=
  ⟨⟨⟨[],(left_requestList l).symm,List.Sublist.refl _,by simp⟩,by simp [new],by simp [new],
    trivial,by simp⟩,rfl,by simp [Settled,madeCurrent]⟩

private theorem negotiated_run (hl : JobArray l) (ms : List (Answers Ad × Message)) :
    Negotiated l (negotiate l ms).1 (negotiate l ms).2 := by
  induction ms using List.reverseRecOn with
  | nil => exact negotiated_new l
  | append_singleton ms m ih =>
    rw [negotiate,foldl_append,foldl_cons,foldl_nil]
    change Negotiated l (receive (negotiate l ms) m).1 (receive (negotiate l ms) m).2
    rw [receive]
    split_ifs
    · exact ih
    · exact ih.message hl m.1 m.2

private theorem Negotiated.satisfaction (hl : JobArray l) (h : Negotiated l s es) (A : Answers Ad) :
    (getSatisfaction A s).1 = true ↔ (∀ a, .rejected a ∉ es) ∧ ∀ x ∈ l,
      x ∈ madeCurrent es ∧ .answered x.2 ∈ es ∨
      x ∈ popped (es ++ (getSatisfaction A s).2) ∧
        x ∉ madeCurrent (es ++ (getSatisfaction A s).2) := by
  rw [← h.recorded.count,getSatisfaction]
  split_ifs with hr hc
  · exact iff_of_false (by simp) fun hno => absurd hno.1 (by omega)
  · have hr : s.jobsRejected = 0 := by omega
    obtain ⟨hn,hsame,hsub,hb⟩ := h.recorded.nextJob hl (h.settled_of_none hl hc) A
    rcases hnj : nextJob A s with ⟨_ | _,s',es'⟩ <;> rw [hnj] at hn hb hsame hsub <;>
      dsimp only at hn hb hsame hsub ⊢
    · obtain ⟨hjobs,hcur,hmade⟩ := hb
      obtain ⟨passed,hl',-,hfate⟩ := hn.recorded.split
      rw [hjobs,show left [] = [] from rfl,append_nil] at hl'
      subst hl'
      refine iff_of_true (by simp [hcur]) ⟨hr,fun x hx => ?_⟩
      have hpop := (hfate x hx).resolve_right (hn.recorded.count.mp (hsame.trans hr) _)
      by_cases hm : x ∈ madeCurrent es
      · exact .inl ⟨hm,h.settled_of_none hl hc x hm⟩
      · exact .inr ⟨hpop,by rwa [madeCurrent_append,hmade,append_nil]⟩
    · obtain ⟨x,hx,hcur,hmade⟩ := hb
      have hin : x ∈ madeCurrent (es ++ es') := by
        rw [madeCurrent_append]
        exact mem_append_right _ hmade
      have hmem := hn.recorded.mem (madeCurrent_sublist.subset hin)
      refine iff_of_false (by simpa [hcur] using hl.cluster x hmem) fun hall => ?_
      rcases hall.2 x hmem with ⟨-,ha⟩ | ⟨-,hno⟩
      · exact (h.recorded.unanswered hl hx).1 ha
      · exact hno hin
  · refine iff_of_false (by simp) fun hall => ?_
    have hcur := h.current
    rcases ho : openJob none es with _ | ⟨a,id,ad⟩ <;> rw [ho] at hcur
    · exact hc hcur.1
    · obtain ⟨-,-,hans,hm,-⟩ := hcur
      rcases hall.2 _ (h.recorded.mem (madeCurrent_sublist.subset hm)) with ⟨-,ha⟩ | ⟨-,hno⟩
      · exact hans ha
      · exact hno (by simpa using hm)

/-- The jobs become current in the order of the array, each once at most, every event is right at
its time, and the satisfaction is what the events say. -/
theorem negotiate_fair (hl : JobArray l) (ms : List (Answers Ad × Message)) :
    (madeCurrent (negotiate l ms).2).Sublist l ∧ (madeCurrent (negotiate l ms).2).Nodup ∧
      EachAt (Fair l) [] (negotiate l ms).2 ∧
      ∀ A, (getSatisfaction A (negotiate l ms).1).1 = true ↔
        (∀ a, .rejected a ∉ (negotiate l ms).2) ∧ ∀ x ∈ l,
          x ∈ madeCurrent (negotiate l ms).2 ∧ .answered x.2 ∈ (negotiate l ms).2 ∨
          x ∈ popped ((negotiate l ms).2 ++ (getSatisfaction A (negotiate l ms).1).2) ∧
            x ∉ madeCurrent ((negotiate l ms).2 ++ (getSatisfaction A (negotiate l ms).1).2) := by
  have h := negotiated_run hl ms
  obtain ⟨passed,hsplit,hsub,-⟩ := h.recorded.split
  have hcur : (madeCurrent (negotiate l ms).2).Sublist l :=
    madeCurrent_sublist.trans (hsub.trans (hsplit ▸ sublist_append_left _ _))
  exact ⟨hcur,hcur.nodup (List.Nodup.of_map _ hl.distinct),h.recorded.fair,
    fun A => h.satisfaction hl A⟩

end

/-- Three jobs of two auto clusters, one of which is rejected. -/
theorem negotiate_fair_rejected :
    madeCurrent (negotiate [(1,⟨4,0⟩),(2,⟨5,0⟩),(1,⟨6,0⟩)]
      [(⟨fun _ => false,some⟩,.sendJobInfo true),(⟨fun _ => false,some⟩,.rejected),
        (⟨fun _ => false,some⟩,.permissionAndAd)]).2 = [(1,⟨4,0⟩),(2,⟨5,0⟩)] ∧
    (madeCurrent (negotiate [(1,⟨4,0⟩),(2,⟨5,0⟩),(1,⟨6,0⟩)]
      [(⟨fun _ => false,some⟩,.sendJobInfo true),(⟨fun _ => false,some⟩,.rejected),
        (⟨fun _ => false,some⟩,.permissionAndAd)]).2).Nodup :=
  ⟨by decide,(negotiate_fair ⟨by decide,by decide⟩ _).2.1⟩

end Condor.Schedd.Negotiate
