import Condor.ClassAdLog.Parser
import Condor.Lib.Run

/-!
# Mirroring a log that is being written

`ClassAdLogReader` follows a log through `Poll`: the prober decides from the file size, the sequence
number and the last entry whether to load the file anew, to continue or to do nothing. A prober that
runs into the end of the file closes the stream that it shares with the reader: such a poll ends the
run.
-/

namespace Condor

open Lib Lib.Reader List Option

/-- The times that the prober also stores are never compared and left out. -/
structure ClassAdLogProber where
  lastSize : Nat := 0
  lastSeqNum : Int := 0
  curProbedSize : Nat := 0
  curProbedSeqNum : Int := 0
  deriving DecidableEq

inductive ProbeResult where
  | initQuill
  | addition
  | noChange
  | compressed
  | probeError
  | probeFatalError
  deriving DecidableEq

namespace ClassAdLogProber

/-- The comparison behind a first record that could be read: the result and whether the
shared stream is still open. -/
def compare (pr : ClassAdLogProber) (parser : ClassAdLogParser) (entry : ClassAdLogEntry)
    (file : List Byte) : ProbeResult × Bool :=
  if pr.lastSize = 0 then (.initQuill,true)
  else if pr.curProbedSeqNum ≠ pr.lastSeqNum then (.compressed,true)
  else
    match { parser with nextOffset := entry.offset }.readLogEntry file with
    | (.fatalError,isOpen,_) => (.probeFatalError,isOpen)
    | (.readError,isOpen,_) => (.probeError,isOpen)
    | (_,isOpen,q) =>
      if file.length = pr.lastSize ∧ q.curCALogEntry.equal entry then (.noChange,isOpen)
      else if file.length > pr.lastSize ∧ q.curCALogEntry.equal entry then (.addition,isOpen)
      else (.probeError,isOpen)

/-- `probe` with the last entry of the reader's parser: the result, whether the stream is still
open, and the prober. -/
def probe (pr : ClassAdLogProber) (entry : ClassAdLogEntry) (file : List Byte) :
    ProbeResult × Bool × ClassAdLogProber :=
  let pr := { pr with curProbedSize := file.length }
  match ({} : ClassAdLogParser).readLogEntry file with
  | (.fatalError,isOpen,_) => (.probeFatalError,isOpen,pr)
  | (.readSuccess,isOpen,parser) =>
    if parser.curCALogEntry.opType ≠ 107 then (.probeFatalError,isOpen,pr)
    else
      let pr := { pr with curProbedSeqNum := atol (parser.curCALogEntry.texts.key.getD []) }
      let result := pr.compare parser entry file
      (result.1,result.2,pr)
  | (_,isOpen,_) => (.probeError,isOpen,pr)

def incrementProbeInfo (pr : ClassAdLogProber) : ClassAdLogProber :=
  { pr with lastSize := pr.curProbedSize, lastSeqNum := pr.curProbedSeqNum }

end ClassAdLogProber

inductive Callback where
  | newClassAd (key mytype targettype : Option CString)
  | destroyClassAd (key : Option CString)
  | setAttribute (key name value : Option CString)
  | deleteAttribute (key name : Option CString)
  deriving DecidableEq

/-- `ProcessLogEntry`: the call to make, if any. -/
def processLogEntry (e : ClassAdLogEntry) : Except Unit (Option Callback) :=
  let t := e.texts
  if e.opType = 101 then .ok (some (.newClassAd t.key t.mytype t.targettype))
  else if e.opType = 102 then .ok (some (.destroyClassAd t.key))
  else if e.opType = 103 then .ok (some (.setAttribute t.key t.name t.value))
  else if e.opType = 104 then .ok (some (.deleteAttribute t.key t.name))
  else if e.opType = 105 ∨ e.opType = 106 ∨ e.opType = 107 then .ok none
  else .error ()

/-- A consumer answers each call from the calls since the last `Reset`, the new one included. -/
abbrev Consumer := List Callback → Bool

/-- The parser and the calls delivered since the last `Reset`. -/
structure Load where
  parser : ClassAdLogParser
  delivered : List Callback
  deriving DecidableEq

/-- `IncrementalLoad`. A fatal read is an assertion failure. -/
def incrementalLoad (consumer : Consumer) (file : List Byte) : Nat → Load → Option (Bool × Load)
  | 0, _ => none
  | fuel+1, l =>
    match l.parser.readLogEntry file with
    | (.fatalError,_,_) => none
    | (.readError,_,p) => some (false,{ l with parser := p })
    | (.readEof,_,p) => some (true,{ l with parser := p })
    | (.readSuccess,_,p) =>
      match processLogEntry p.curCALogEntry with
      | .error _ => some (false,{ l with parser := p })
      | .ok none => incrementalLoad consumer file fuel { l with parser := p }
      | .ok (some c) =>
        let l := { parser := p, delivered := l.delivered ++ [c] }
        if consumer l.delivered then incrementalLoad consumer file fuel l
        else some (false,l)

/-- `BulkLoad`: back to the start of the file and `Reset`. -/
def bulkLoad (consumer : Consumer) (file : List Byte) (l : Load) : Option (Bool × Load) :=
  incrementalLoad consumer file (file.length+1)
    { parser := { l.parser with nextOffset := 0 }, delivered := [] }

inductive PollResult where
  | success
  | fail
  | error
  deriving DecidableEq

structure PollOutcome where
  result : PollResult
  load : Option Bool
  deriving DecidableEq

structure ClassAdLogReader where
  prober : ClassAdLogProber := {}
  state : Load := { parser := {}, delivered := [] }
  deriving DecidableEq

namespace ClassAdLogReader

def finishLoad (pr : ClassAdLogProber) (result : Bool × Load) : PollOutcome × ClassAdLogReader :=
  (⟨.success,some result.1⟩,
    { prober := if result.1 then pr.incrementProbeInfo else pr, state := result.2 })

/-- `Poll`. `opens` is whether the file could be opened; none is an aborted or undefined run. -/
def poll (r : ClassAdLogReader) (consumer : Consumer) (opens : Bool) (file : List Byte) :
    Option (PollOutcome × ClassAdLogReader) :=
  if opens = false then some (⟨.fail,none⟩,r)
  else
    let probed := r.prober.probe r.state.parser.lastCALogEntry file
    let pr := probed.2.2
    if probed.1 = .probeFatalError then some (⟨.error,none⟩,{ r with prober := pr })
    else if probed.2.1 = false then none
    else
      match probed.1 with
      | .noChange => some (⟨.success,none⟩,{ r with prober := pr.incrementProbeInfo })
      | .addition =>
        (incrementalLoad consumer file (file.length+1) r.state).map (finishLoad pr)
      | _ => (bulkLoad consumer file r.state).map (finishLoad pr)

end ClassAdLogReader

structure Mirror where
  file : List Byte
  reader : ClassAdLogReader := {}
  deriving DecidableEq

inductive MirrorStep where
  | append (bs : List Byte)
  | rotate (number timestamp : UInt64) (records : List LogRecord)
  | poll (consumer : Consumer) (opens : Bool)

def rotatedFile (number timestamp : UInt64) (records : List LogRecord) : List Byte :=
  (LogRecord.historicalSequenceNumber number timestamp :: records).flatMap encode

def Mirror.step (s : Mirror) : MirrorStep → Option Mirror
  | .append bs => some { s with file := s.file ++ bs }
  | .rotate number timestamp records =>
    some { s with file := rotatedFile number timestamp records }
  | .poll consumer opens =>
    (s.reader.poll consumer opens s.file).map fun out => { s with reader := out.2 }

def WellFormedLog (file : List Byte) : Prop :=
  ∃ rs : List LogRecord, (∀ r ∈ rs, r.ReadsBack) ∧ file <+: rs.flatMap encode

def completeRecords (file : List Byte) : List LogRecord :=
  (scanAll readLogEntry (fun rs r => rs ++ [r]) [] file).state

def LogRecord.callback : LogRecord → Option Callback
  | .newClassAd key mytype targettype =>
    some (.newClassAd (some key) (some mytype) (some targettype))
  | .destroyClassAd key => some (.destroyClassAd (some key))
  | .setAttribute key name value _ =>
    some (.setAttribute (some key) (some name) (some value.val))
  | .deleteAttribute key name => some (.deleteAttribute (some key) (some name))
  | .beginTransaction => none
  | .endTransaction => none
  | .historicalSequenceNumber .. => none

def sequenceNumber (file : List Byte) : Option UInt64 :=
  match (completeRecords file).head? with
  | some (.historicalSequenceNumber number _) => some number
  | _ => none

/-- The writer appends well-formed records, in pieces, and a rotation changes the number. -/
def Mirror.WriterStep (s : Mirror) : MirrorStep → Prop
  | .append bs => WellFormedLog (s.file ++ bs)
  | .rotate number _ records =>
    (∀ r ∈ records, r.ReadsBack) ∧ sequenceNumber s.file ≠ some number
  | .poll _ _ => True

/-- A rotation gives the file a number that the prober's `atol` tells from the stored one. -/
def Mirror.Renumbers (s : Mirror) : MirrorStep → Prop
  | .rotate number _ _ =>
    s.reader.prober.lastSize = 0 ∨
      atol (decimal number.toNat) ≠ s.reader.prober.lastSeqNum
  | _ => True

def probedSeqNum (file : List Byte) : Option Int :=
  match ({} : ClassAdLogParser).readLogEntry file with
  | (.readSuccess,_,parser) =>
    if parser.curCALogEntry.opType = 107 then
      some (atol (parser.curCALogEntry.texts.key.getD []))
    else none
  | _ => none

private def LogRecord.probed : LogRecord → Option Int
  | .historicalSequenceNumber number _ => some (atol (decimal number.toNat))
  | _ => none

private theorem probedSeqNum_record {r : LogRecord} (h : r.ReadsBack) (rest : List Byte) :
    probedSeqNum (encode r ++ rest) = r.probed := by
  have hr := ({} : ClassAdLogParser).readLogEntry_record h [] rest rfl
  rw [nil_append] at hr
  simp only [probedSeqNum,hr]
  cases r <;> rfl

private theorem probedSeqNum_rotatedFile (number timestamp : UInt64) (records : List LogRecord) :
    probedSeqNum (rotatedFile number timestamp records) = some (atol (decimal number.toNat)) := by
  rw [rotatedFile,flatMap_cons]
  exact probedSeqNum_record (by trivial) _

def PartialTail (tail : List Byte) : Prop :=
  tail = [] ∨ ∃ r : LogRecord, r.ReadsBack ∧ tail <+: encode r ∧ tail ≠ encode r

variable {file : List Byte}

theorem WellFormedLog.split (h : WellFormedLog file) :
    ∃ rs : List LogRecord, (∀ r ∈ rs, r.ReadsBack) ∧
      ∃ tail, PartialTail tail ∧ file = rs.flatMap encode ++ tail := by
  obtain ⟨rs,hrs,hpre⟩ := h
  obtain ⟨k,_,tail,rfl,ht⟩ := prefix_flatMap_cases encode rs hpre
  refine ⟨rs.take k,fun r hr => hrs r (mem_of_mem_take hr),tail,?_,rfl⟩
  rcases ht with rfl | ⟨r,hr,ht⟩
  · exact .inl rfl
  · exact .inr ⟨r,hrs r hr,ht⟩

private theorem foldl_concat (rs acc : List LogRecord) :
    rs.foldl (fun rs r => rs ++ [r]) acc = acc ++ rs := by
  induction rs generalizing acc with
  | nil => simp
  | cons r rs ih => rw [foldl_cons,ih,append_assoc,singleton_append]

variable {rs : List LogRecord}

private theorem prefix_completeRecords (hrs : ∀ r ∈ rs, r.ReadsBack)
    (rest : List Byte) : rs <+: completeRecords (rs.flatMap encode ++ rest) := by
  rw [completeRecords,scanAll_frames readLogEntry_consumes encode _ rs
    (fun r hr => readLogEntry_frames (hrs r hr)),foldl_concat,nil_append]
  have hstep : ∀ (st : List LogRecord) (s : List Byte) (r : LogRecord) (rest : List Byte),
      rs <+: st → readLogEntry s = (.ok r,rest) → rs <+: st ++ [r] :=
    fun st _ r _ hst _ => hst.trans (prefix_append st [r])
  exact scan_invariant hstep _ rs rest (prefix_refl rs)

private theorem completeRecords_split (hrs : ∀ r ∈ rs, r.ReadsBack)
    {tail : List Byte} (ht : PartialTail tail) :
    completeRecords (rs.flatMap encode ++ tail) = rs := by
  rw [completeRecords,scanAll_frames readLogEntry_consumes encode _ rs
    (fun r hr => readLogEntry_frames (hrs r hr))]
  have hstop : readLogEntry tail = (.error .null,[]) := by
    rcases ht with rfl | ⟨r,hr,hpre,hne⟩
    · rfl
    · exact (readLogEntry_frames hr).starves tail hpre hne
  rw [scanAll,scan_error hstop]
  exact foldl_concat rs []

theorem probedSeqNum_append (h : WellFormedLog file)
    (hsome : probedSeqNum file ≠ none) (bs : List Byte) :
    probedSeqNum (file ++ bs) = probedSeqNum file := by
  obtain ⟨rs,hrs,tail,ht,rfl⟩ := h.split
  cases rs with
  | nil =>
    obtain ⟨q,hq,_⟩ := ({} : ClassAdLogParser).readLogEntry_cut [] tail rfl ht
    rw [nil_append] at hq
    refine absurd ?_ hsome
    change probedSeqNum tail = none
    simp only [probedSeqNum,hq]
  | cons r rs =>
    have hr := hrs r (by simp)
    simp only [flatMap_cons,append_assoc,probedSeqNum_record hr]

structure ClassAdLogProber.Saw (pr : ClassAdLogProber) (file : List Byte) (result : ProbeResult)
    (pr' : ClassAdLogProber) : Prop where
  size : pr'.curProbedSize = file.length
  number : probedSeqNum file = some pr'.curProbedSeqNum
  -- only a file with the stored number is continued or left alone
  same : result = .addition ∨ result = .noChange →
    pr.lastSize ≠ 0 ∧ pr'.curProbedSeqNum = pr.lastSeqNum

private theorem ClassAdLogProber.probe_last (pr : ClassAdLogProber) (entry : ClassAdLogEntry)
    (file : List Byte) : (pr.probe entry file).2.2.lastSize = pr.lastSize ∧
      (pr.probe entry file).2.2.lastSeqNum = pr.lastSeqNum := by
  unfold probe
  split
  · exact ⟨rfl,rfl⟩
  · dsimp only
    split <;> exact ⟨rfl,rfl⟩
  · exact ⟨rfl,rfl⟩

variable {pr : ClassAdLogProber}

private theorem ClassAdLogProber.compare_same {parser : ClassAdLogParser} {entry : ClassAdLogEntry}
    (h : (pr.compare parser entry file).1 = .addition ∨
      (pr.compare parser entry file).1 = .noChange) :
    pr.lastSize ≠ 0 ∧ pr.curProbedSeqNum = pr.lastSeqNum := by
  unfold compare at h
  split at h
  · simp at h
  · next hsize =>
    split at h
    · simp at h
    · next hnum => exact ⟨hsize,not_not.mp hnum⟩

private theorem ClassAdLogProber.probe_saw {entry : ClassAdLogEntry}
    (hres : (pr.probe entry file).1 ≠ .probeFatalError)
    (hopen : (pr.probe entry file).2.1 = true) :
    pr.Saw file (pr.probe entry file).1 (pr.probe entry file).2.2 := by
  have hstream := ({} : ClassAdLogParser).readLogEntry_stream file
  generalize hprobe : pr.probe entry file = out at *
  unfold probe at hprobe
  split at hprobe
  · rw [← hprobe] at hres
    exact absurd rfl hres
  · next isOpen parser hread =>
    dsimp only at hprobe
    split at hprobe
    · rw [← hprobe] at hres
      exact absurd rfl hres
    · next hop =>
      have hnum : probedSeqNum file =
          some (atol (parser.curCALogEntry.texts.key.getD [])) := by
        simp only [probedSeqNum,hread]
        rw [if_pos (not_not.mp hop)]
      subst hprobe
      exact ⟨rfl,hnum,fun h => ClassAdLogProber.compare_same h⟩
  · next code isOpen parser hne hne' hread =>
    subst hprobe
    rw [hread] at hstream
    rcases hstream hopen with hc | hc
    · exact absurd hc hne'
    · exact absurd hc hne

/-- The parser stands behind complete records and exactly these have been delivered. -/
def Load.AtBoundary (l : Load) (file : List Byte) : Prop :=
  ∃ rs : List LogRecord, (∀ r ∈ rs, r.ReadsBack) ∧
    (∃ rest, file = rs.flatMap encode ++ rest) ∧
    l.parser.nextOffset = (rs.flatMap encode).length ∧
    l.delivered = rs.filterMap LogRecord.callback

theorem Load.AtBoundary.append {l : Load} (h : l.AtBoundary file)
    (bs : List Byte) : l.AtBoundary (file ++ bs) := by
  obtain ⟨rs,hrs,⟨rest,rfl⟩,hpos,hdel⟩ := h
  exact ⟨rs,hrs,⟨rest ++ bs,append_assoc _ _ _⟩,hpos,hdel⟩

private theorem processLogEntry_record (r : LogRecord) (offset nextOffset : Nat) :
    processLogEntry { offset := offset, nextOffset := nextOffset, opType := r.getOpType,
                      texts := r.texts } = .ok r.callback := by
  cases r <;> rfl

/-- A load from behind the records `done` ends behind some of `todo`, and behind all of them when it
succeeds. -/
private theorem incrementalLoad_spec (consumer : Consumer) {tail : List Byte}
    (ht : PartialTail tail) (todo done : List LogRecord)
    (hrs : ∀ r ∈ done ++ todo, r.ReadsBack) (fuel : Nat) (hfuel : todo.length < fuel) (l : Load)
    (hpos : l.parser.nextOffset = (done.flatMap encode).length)
    (hdel : l.delivered = done.filterMap LogRecord.callback) :
    ∃ ok l', incrementalLoad consumer ((done ++ todo).flatMap encode ++ tail) fuel l =
        some (ok,l') ∧
      l'.AtBoundary ((done ++ todo).flatMap encode ++ tail) ∧
      (ok = true → l'.delivered = (done ++ todo).filterMap LogRecord.callback) := by
  induction todo generalizing done fuel l with
  | nil =>
    obtain ⟨q,hq,hqpos⟩ := l.parser.readLogEntry_cut _ tail hpos ht
    obtain ⟨fuel,rfl⟩ := Nat.exists_eq_succ_of_ne_zero (Nat.ne_of_gt hfuel)
    rw [append_nil] at hrs ⊢
    refine ⟨true,{ l with parser := q },?_,⟨done,hrs,⟨tail,rfl⟩,?_,hdel⟩,fun _ => hdel⟩
    · simp only [incrementalLoad,hq]
    · rw [← hpos,← hqpos]
  | cons r todo ih =>
    have hr := hrs r (by simp)
    have hassoc : done ++ r :: todo = done ++ [r] ++ todo := by simp
    have hfile : (done ++ r :: todo).flatMap encode ++ tail =
        done.flatMap encode ++ (encode r ++ (todo.flatMap encode ++ tail)) := by simp
    have hread := l.parser.readLogEntry_record hr _ (todo.flatMap encode ++ tail) hpos
    rw [← hfile] at hread
    obtain ⟨fuel,rfl⟩ := Nat.exists_eq_succ_of_ne_zero (Nat.ne_zero_of_lt hfuel)
    have hpos' : (done.flatMap encode).length + (encode r).length =
        ((done ++ [r]).flatMap encode).length := by simp
    have hlen : todo.length < fuel := by
      simp only [length_cons] at hfuel
      omega
    simp only [incrementalLoad,hread,processLogEntry_record]
    rw [hassoc] at hrs ⊢
    cases hc : r.callback with
    | none =>
      exact ih (done ++ [r]) hrs fuel hlen _ hpos' (by simp [hdel,filterMap_append,hc])
    | some c =>
      have hdel' : l.delivered ++ [c] = (done ++ [r]).filterMap LogRecord.callback := by
        simp [hdel,filterMap_append,hc]
      dsimp only
      split
      · exact ih (done ++ [r]) hrs fuel hlen _ hpos' hdel'
      · refine ⟨false,_,rfl,⟨done ++ [r],?_,?_,hpos',hdel'⟩,by simp⟩
        · exact fun a ha => hrs a (by simp only [mem_append] at ha ⊢; exact .inl ha)
        · exact ⟨todo.flatMap encode ++ tail,by simp⟩

private theorem encode_ne_nil (r : LogRecord) (h : r.ReadsBack) : encode r ≠ [] := by
  intro he
  have hr := (readLogEntry_frames h).reads []
  rw [he,nil_append,readLogEntry_nil] at hr
  simp at hr

private theorem length_le_flatMap_encode (h : ∀ r ∈ rs, r.ReadsBack) :
    rs.length ≤ (rs.flatMap encode).length := by
  induction rs with
  | nil => simp
  | cons r rs ih =>
    have hr := length_pos_of_ne_nil (encode_ne_nil r (h r (by simp)))
    have hrs := ih (fun a ha => h a (by simp [ha]))
    simp only [flatMap_cons,length_append,length_cons]
    omega

variable {consumer : Consumer}

private theorem incrementalLoad_atBoundary {l l' : Load}
    {ok : Bool} (hfile : WellFormedLog file) (hl : l.AtBoundary file)
    (h : incrementalLoad consumer file (file.length+1) l = some (ok,l')) :
    l'.AtBoundary file ∧
      (ok = true → l'.delivered = (completeRecords file).filterMap LogRecord.callback) := by
  obtain ⟨rs,hrs,tail,ht,rfl⟩ := hfile.split
  obtain ⟨done,hdone,⟨rest,hrest⟩,hpos,hdel⟩ := hl
  -- the boundary is one of the boundaries of the file
  have hpre : done <+: rs := by
    rw [← completeRecords_split hrs ht,hrest]
    exact prefix_completeRecords hdone rest
  obtain ⟨todo,rfl⟩ := hpre
  have hlen := length_le_flatMap_encode hrs
  have hfuel : todo.length < ((done ++ todo).flatMap encode ++ tail).length+1 := by
    simp only [length_append] at hlen ⊢
    omega
  obtain ⟨ok1,l₁,h1,hb,hd⟩ := incrementalLoad_spec consumer ht todo done hrs _ hfuel l hpos hdel
  rw [h1] at h
  obtain ⟨rfl,rfl⟩ := Prod.mk.inj (some.inj h)
  rw [completeRecords_split hrs ht]
  exact ⟨hb,hd⟩

private theorem bulkLoad_atBoundary {l l' : Load} {ok : Bool}
    (hfile : WellFormedLog file) (h : bulkLoad consumer file l = some (ok,l')) :
    l'.AtBoundary file ∧
      (ok = true → l'.delivered = (completeRecords file).filterMap LogRecord.callback) :=
  incrementalLoad_atBoundary hfile ⟨[],by simp,⟨file,rfl⟩,rfl,rfl⟩ h

private theorem ClassAdLogReader.poll_cases {r r' : ClassAdLogReader} {opens : Bool}
    {out : PollOutcome} (h : r.poll consumer opens file = some (out,r')) :
    (out.load = none ∧ r'.state = r.state ∧ r'.prober.lastSize = r.prober.lastSize ∧
        r'.prober.lastSeqNum = r.prober.lastSeqNum) ∨
    (∃ pr, out.load = none ∧ r.prober.Saw file .noChange pr ∧
        r' = { r with prober := pr.incrementProbeInfo }) ∨
    (∃ pr ok l, out.load = some ok ∧ r.prober.Saw file .addition pr ∧
        incrementalLoad consumer file (file.length+1) r.state = some (ok,l) ∧
        r' = (finishLoad pr (ok,l)).2 ∧ pr.lastSize = r.prober.lastSize ∧
        pr.lastSeqNum = r.prober.lastSeqNum) ∨
    (∃ result pr ok l, out.load = some ok ∧ r.prober.Saw file result pr ∧
        bulkLoad consumer file r.state = some (ok,l) ∧ r' = (finishLoad pr (ok,l)).2 ∧
        pr.lastSize = r.prober.lastSize ∧ pr.lastSeqNum = r.prober.lastSeqNum) := by
  have hlast := r.prober.probe_last r.state.parser.lastCALogEntry file
  have hsaw := @ClassAdLogProber.probe_saw file r.prober r.state.parser.lastCALogEntry
  unfold poll at h
  generalize r.prober.probe r.state.parser.lastCALogEntry file = probed at h hlast hsaw
  split at h
  · obtain ⟨rfl,rfl⟩ := Prod.mk.inj (some.inj h)
    exact .inl ⟨rfl,rfl,rfl,rfl⟩
  · dsimp only at h
    split at h
    · obtain ⟨rfl,rfl⟩ := Prod.mk.inj (some.inj h)
      exact .inl ⟨rfl,rfl,hlast⟩
    · next hres =>
      split at h
      · simp at h
      · next hopen =>
        have hsaw := hsaw hres (by simpa using hopen)
        split at h
        · next hno =>
          rw [hno] at hsaw
          obtain ⟨rfl,rfl⟩ := Prod.mk.inj (some.inj h)
          exact .inr (.inl ⟨_,rfl,hsaw,rfl⟩)
        · next hadd =>
          rw [hadd] at hsaw
          obtain ⟨⟨ok,l⟩,hload,hfin⟩ := Option.map_eq_some_iff.mp h
          obtain ⟨rfl,rfl⟩ := Prod.mk.inj hfin
          exact .inr (.inr (.inl ⟨_,ok,l,rfl,hsaw,hload,rfl,hlast⟩))
        · obtain ⟨⟨ok,l⟩,hload,hfin⟩ := Option.map_eq_some_iff.mp h
          obtain ⟨rfl,rfl⟩ := Prod.mk.inj hfin
          exact .inr (.inr (.inr ⟨_,_,ok,l,rfl,hsaw,hload,rfl,hlast⟩))

/-- While the file has the number that the prober stored at its last success, the reader stands
at a record boundary of this file. -/
structure Mirror.Synced (s : Mirror) : Prop where
  wellFormed : WellFormedLog s.file
  numbered : s.reader.prober.lastSize ≠ 0 → probedSeqNum s.file ≠ none
  boundary : s.reader.prober.lastSize ≠ 0 →
    probedSeqNum s.file = some s.reader.prober.lastSeqNum → s.reader.state.AtBoundary s.file

namespace Mirror

private theorem Synced.finishLoad {s : Mirror} (hs : s.Synced)
    {result : ProbeResult} {ok : Bool} {l : Load} (hsaw : s.reader.prober.Saw s.file result pr)
    (hl : l.AtBoundary s.file) :
    Synced { s with reader := (ClassAdLogReader.finishLoad pr (ok,l)).2 } where
  wellFormed := hs.wellFormed
  numbered _ := by
    change probedSeqNum s.file ≠ none
    rw [hsaw.number]
    simp
  boundary _ _ := hl

theorem Synced.poll {s : Mirror} (hs : s.Synced) {opens : Bool}
    {out : PollOutcome} {r : ClassAdLogReader}
    (h : s.reader.poll consumer opens s.file = some (out,r)) :
    Synced { s with reader := r } ∧ (out.load = some true →
      r.state.delivered = (completeRecords s.file).filterMap LogRecord.callback) := by
  rcases ClassAdLogReader.poll_cases h with ⟨hnone,hst,hsize,hseq⟩ | ⟨pr,hnone,hsaw,rfl⟩ |
    ⟨pr,ok,l,hok,hsaw,hload,rfl,-⟩ | ⟨result,pr,ok,l,hok,hsaw,hload,rfl,-⟩
  · refine ⟨⟨hs.wellFormed,?_,?_⟩,by simp [hnone]⟩
    · change r.prober.lastSize ≠ 0 → _
      rw [hsize]
      exact hs.numbered
    · change r.prober.lastSize ≠ 0 → _ = some r.prober.lastSeqNum → r.state.AtBoundary s.file
      rw [hsize,hseq,hst]
      exact hs.boundary
  · obtain ⟨hsize,hseq⟩ := hsaw.same (.inr rfl)
    refine ⟨⟨hs.wellFormed,fun _ => hs.numbered hsize,fun _ hnum => ?_⟩,by simp [hnone]⟩
    exact hs.boundary hsize (hsaw.number.trans (by rw [hseq]))
  · obtain ⟨hsize,hseq⟩ := hsaw.same (.inl rfl)
    have hb := hs.boundary hsize (hsaw.number.trans (by rw [hseq]))
    obtain ⟨hb',hd⟩ := incrementalLoad_atBoundary hs.wellFormed hb hload
    refine ⟨hs.finishLoad hsaw hb',fun ht => hd ?_⟩
    exact some.inj (hok.symm.trans ht)
  · obtain ⟨hb',hd⟩ := bulkLoad_atBoundary hs.wellFormed hload
    refine ⟨hs.finishLoad hsaw hb',fun ht => hd ?_⟩
    exact some.inj (hok.symm.trans ht)

theorem Synced.step {s s' : Mirror} {a : MirrorStep} (hs : s.Synced)
    (hok : s.WriterStep a ∧ s.Renumbers a) (h : s.step a = some s') : s'.Synced := by
  cases a with
  | append bs =>
    obtain rfl := some.inj h
    refine ⟨hok.1,fun hsize => ?_,fun hsize hnum => ?_⟩
    · rw [probedSeqNum_append hs.wellFormed (hs.numbered hsize)]
      exact hs.numbered hsize
    · rw [probedSeqNum_append hs.wellFormed (hs.numbered hsize)] at hnum
      exact (hs.boundary hsize hnum).append bs
  | rotate number timestamp records =>
    obtain rfl := some.inj h
    refine ⟨⟨_ :: records,?_,prefix_refl _⟩,fun _ => ?_,fun hsize hnum => ?_⟩
    · intro r hr
      rcases List.mem_cons.mp hr with rfl | hr
      · trivial
      · exact hok.1.1 r hr
    · rw [probedSeqNum_rotatedFile]
      simp
    · rw [probedSeqNum_rotatedFile] at hnum
      exact absurd (some.inj hnum) (hok.2.resolve_left hsize)
  | poll consumer opens =>
    obtain ⟨out,hp,rfl⟩ := Option.map_eq_some_iff.mp h
    exact (hs.poll hp).1

theorem Synced.start (h : WellFormedLog file) :
    Synced { file := file } where
  wellFormed := h
  numbered hsize := absurd rfl hsize
  boundary hsize _ := absurd rfl hsize

/-- As long as no rotation reuses the number that the prober stored, a poll whose load succeeds has
delivered the records of the current file, in file order. -/
theorem poll_delivered_of_run {file : List Byte} {steps : List MirrorStep} {s : Mirror}
    {consumer : Consumer} {opens : Bool} {out : PollOutcome} {r : ClassAdLogReader}
    (hfile : WellFormedLog file)
    (hok : Along Mirror.step (fun t a => t.WriterStep a ∧ t.Renumbers a) { file := file } steps)
    (hrun : run Mirror.step { file := file } steps = some s)
    (hpoll : s.reader.poll consumer opens s.file = some (out,r)) (hload : out.load = some true) :
    r.state.delivered = (completeRecords s.file).filterMap LogRecord.callback := by
  have hs : s.Synced := run_invariant (fun _ _ _ ht hok hstep => ht.step hok hstep) hok
    (Synced.start hfile) hrun
  exact (hs.poll hpoll).2 hload

private def jobAd : LogRecord := .newClassAd (cstr "1.0") (cstr "Job") (cstr "Machine")

private def jobAttribute (value : String) : LogRecord :=
  .mkSetAttribute (cstr "1.0") (cstr "A") (cstr value) false

private def jobFile (number : UInt64) (value : String) : List Byte :=
  rotatedFile number 0 [jobAd,jobAttribute value]

private theorem jobFile_wellFormed (number : UInt64) (value : String)
    (h : (jobAttribute value).ReadsBack) : WellFormedLog (jobFile number value) := by
  refine ⟨_,?_,prefix_refl _⟩
  intro r hr
  simp only [mem_cons,not_mem_nil,or_false] at hr
  rcases hr with rfl | rfl | rfl
  · trivial
  · decide
  · exact h

private theorem exists_of_run {s : Mirror} {a : List MirrorStep}
    {P : Mirror → PollOutcome → ClassAdLogReader → Bool} (h : ((run Mirror.step s a).bind fun t =>
      (t.reader.poll (fun _ => true) true t.file).map fun out => P t out.1 out.2) = some true) :
    ∃ t out r, run Mirror.step s a = some t ∧
      t.reader.poll (fun _ => true) true t.file = some (out,r) ∧ P t out r = true := by
  obtain ⟨t,hs,h⟩ := Option.bind_eq_some_iff.mp h
  obtain ⟨⟨out,r⟩,hp,h⟩ := Option.map_eq_some_iff.mp h
  exact ⟨t,out,r,hs,hp,h⟩

/-- A log that is polled, grows by a partial record, is polled again and rotated. -/
theorem poll_delivered_of_run_rotation :
    let steps : List MirrorStep := [.poll (fun _ => true) true,.append (bytes (cstr "103 1.0 ")),
      .poll (fun _ => true) true,.rotate 2 0 [jobAd,jobAttribute "2"]]
    ∃ s out r, run Mirror.step { file := jobFile 1 "1" } steps = some s ∧
      s.reader.poll (fun _ => true) true s.file = some (out,r) ∧ out.load = some true ∧
      r.state.delivered = (completeRecords s.file).filterMap LogRecord.callback := by
  intro steps
  have hgrown : WellFormedLog (jobFile 1 "1" ++ bytes (cstr "103 1.0 ")) := by
    refine ⟨[.historicalSequenceNumber 1 0,jobAd,jobAttribute "1",jobAttribute "1"],?_,?_⟩
    · intro r hr
      simp only [mem_cons,not_mem_nil,or_false] at hr
      rcases hr with rfl | rfl | rfl | rfl <;> decide
    · decide
  have hok : Along Mirror.step (fun t a => t.WriterStep a ∧ t.Renumbers a)
      { file := jobFile 1 "1" } steps := by
    refine .cons ⟨trivial,trivial⟩ rfl (.cons ⟨hgrown,trivial⟩ rfl
      (.cons ⟨trivial,trivial⟩ rfl (.cons ⟨⟨?_,?_⟩,?_⟩ rfl trivial)))
    · intro r hr
      simp only [mem_cons,not_mem_nil,or_false] at hr
      rcases hr with rfl | rfl <;> decide
    · decide
    · exact .inr (by decide)
  obtain ⟨s,out,r,hrun,hpoll,hload⟩ := exists_of_run
    (s := { file := jobFile 1 "1" }) (a := steps)
    (P := fun _ out _ => out.load == some true) (by decide)
  have hload : out.load = some true := by simpa using hload
  exact ⟨s,out,r,hrun,hpoll,hload,
    poll_delivered_of_run (jobFile_wellFormed 1 "1" (by decide)) hok hrun hpoll hload⟩

/-- The prober reads the sequence number with `atol`, which saturates: the load goes on at the old
end of the rotated file. -/
theorem poll_rotation_saturates :
    let steps : List MirrorStep := [.poll (fun _ => true) true,
      .rotate 9223372036854775808 0 [jobAd,jobAttribute "22"]]
    WellFormedLog (jobFile 9223372036854775807 "1") ∧
      Along Mirror.step Mirror.WriterStep { file := jobFile 9223372036854775807 "1" } steps ∧
      ∃ s out r, run Mirror.step { file := jobFile 9223372036854775807 "1" } steps = some s ∧
        s.reader.poll (fun _ => true) true s.file = some (out,r) ∧ out.load = some true ∧
        r.state.delivered ≠ (completeRecords s.file).filterMap LogRecord.callback := by
  intro steps
  refine ⟨jobFile_wellFormed _ _ (by decide),.cons trivial rfl (.cons ⟨?_,?_⟩ rfl trivial),?_⟩
  · intro r hr
    simp only [mem_cons,not_mem_nil,or_false] at hr
    rcases hr with rfl | rfl <;> decide
  · decide
  · obtain ⟨s,out,r,hrun,hpoll,hload⟩ := exists_of_run
      (s := { file := jobFile 9223372036854775807 "1" }) (a := steps)
      (P := fun s out r => out.load == some true &&
        r.state.delivered != (completeRecords s.file).filterMap LogRecord.callback)
      (by decide)
    simp only [Bool.and_eq_true,beq_iff_eq,bne_iff_ne] at hload
    exact ⟨s,out,r,hrun,hpoll,hload⟩

end Mirror

end Condor
