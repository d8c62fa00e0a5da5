import Condor.ClassAdLog.RoundTrip

/-!
# The incremental log parser

`ClassAdLogParser` reads the same log file as the log constructor, but from a remembered offset and
one entry at a time, so that a reader can follow a file that grows.
-/

namespace Condor

open Lib Lib.Reader List

/-- The texts of a `ClassAdLogEntry`; none is a NULL pointer. -/
structure EntryTexts where
  key : Option CString := none
  mytype : Option CString := none
  targettype : Option CString := none
  name : Option CString := none
  value : Option CString := none
  deriving DecidableEq

structure ClassAdLogEntry where
  offset : Nat := 0
  nextOffset : Nat := 0
  opType : Int := 0
  texts : EntryTexts := {}
  deriving DecidableEq

namespace ClassAdLogEntry

/-- `init`: the texts are freed, the offsets stay. -/
def init (e : ClassAdLogEntry) (opType : Int) : ClassAdLogEntry :=
  { e with opType := opType, texts := {} }

/-- `operator=`: everything is copied but the operation type. -/
def assign (e src : ClassAdLogEntry) : ClassAdLogEntry :=
  { src with opType := e.opType }

/-- `equal` compares the texts that the operation type uses. -/
def equal (e other : ClassAdLogEntry) : Bool :=
  if other.opType = e.opType then
    let t := e.texts
    let u := other.texts
    if other.opType = 101 then
      u.key == t.key && u.mytype == t.mytype && u.targettype == t.targettype
    else if other.opType = 102 then u.key == t.key
    else if other.opType = 103 then u.key == t.key && u.name == t.name && u.value == t.value
    else if other.opType = 104 then u.key == t.key && u.name == t.name
    else if other.opType = 105 then true
    else if other.opType = 106 then true
    else if other.opType = 107 then u.key == t.key && u.value == t.value
    else false
  else false

end ClassAdLogEntry

inductive FileOpErrCode where
  | readSuccess
  | readEof
  | readError
  | fatalError
  deriving DecidableEq

/-! The body readers. The texts that a failed read leaves behind are not kept: every caller
either overwrites them or gives up. -/

def readLogHistoricalSNBody : Reader Byte Unit EntryTexts := do
  let key ← readword
  let name ← readword
  let value ← readline
  return { key := some key, name := some name, value := some value.val }

def readNewClassAdBody : Reader Byte Unit EntryTexts := do
  let key ← readword
  let mytype ← readword
  let targettype ← readword
  return { key := some key, mytype := some (typeOfPlaceholder mytype),
           targettype := some (typeOfPlaceholder targettype) }

def readDestroyClassAdBody : Reader Byte Unit EntryTexts := do
  let key ← readword
  return { key := some key }

def readSetAttributeBody : Reader Byte Unit EntryTexts := do
  let key ← readword
  let name ← readword
  let value ← readline
  return { key := some key, name := some name, value := some value.val }

def readDeleteAttributeBody : Reader Byte Unit EntryTexts := do
  let key ← readword
  let name ← readword
  return { key := some key, name := some name }

def readBeginTransactionBody : Reader Byte Unit EntryTexts := do
  let _ ← readNewline
  return {}

def readEndTransactionBody : Reader Byte Unit EntryTexts := do
  let _ ← readNewline
  return {}

def readEntryBody (op : Int) : Option (Reader Byte Unit EntryTexts) :=
  if op = 107 then some readLogHistoricalSNBody
  else if op = 101 then some readNewClassAdBody
  else if op = 102 then some readDestroyClassAdBody
  else if op = 103 then some readSetAttributeBody
  else if op = 104 then some readDeleteAttributeBody
  else if op = 105 then some readBeginTransactionBody
  else if op = 106 then some readEndTransactionBody
  else none

inductive RecoveryEnd where
  | foundEndTransaction
  | endOfFile
  | notEndOfFile
  deriving DecidableEq

/-- Lines are read until `readline` fails, which it also does on an empty line and on a NUL. -/
def recoveryScan : Nat → List Byte → RecoveryEnd
  | 0, _ => .endOfFile
  | fuel+1, s =>
    match readline s with
    | (.ok line,rest) =>
      if sscanfInt (bytes line.val) = some 106 then .foundEndTransaction
      else recoveryScan fuel rest
    | (.error _,_) =>
      if s.any fun b => b == 0 || b == newline then .notEndOfFile else .endOfFile

structure ClassAdLogParser where
  nextOffset : Nat := 0
  curCALogEntry : ClassAdLogEntry := {}
  lastCALogEntry : ClassAdLogEntry := {}
  deriving DecidableEq

namespace ClassAdLogParser

def startEntry (p : ClassAdLogParser) (op : Int) : ClassAdLogParser :=
  { p with
    lastCALogEntry := p.curCALogEntry
    curCALogEntry := { p.curCALogEntry.init op with offset := p.nextOffset } }

/-- `readLogEntry` on an open stream: its result, whether the stream is still open, and the
parser after the call. -/
def readLogEntry (p : ClassAdLogParser) (file : List Byte) :
    FileOpErrCode × Bool × ClassAdLogParser :=
  match readword (file.drop p.nextOffset) with
  | (.error _,_) => (.readEof,false,p)
  | (.ok word,rest) =>
    let q := p.startEntry (atoi word)
    match readEntryBody (atoi word) with
    | none => (.readError,false,q)
    | some body =>
      match body rest with
      | (.ok texts,rest) =>
        -- ftell
        let next := file.length - rest.length
        (.readSuccess,true,{ q with
          nextOffset := next
          curCALogEntry := { q.curCALogEntry with texts := texts, nextOffset := next } })
      | (.error _,rest) =>
        match recoveryScan (rest.length+1) rest with
        | .foundEndTransaction => (.fatalError,true,q)
        | .notEndOfFile => (.fatalError,false,q)
        | .endOfFile =>
          -- the operation type of the partial record survives the assignment
          (.readEof,false,{ q with
            curCALogEntry :=
              { q.curCALogEntry.assign q.lastCALogEntry with offset := p.nextOffset } })

end ClassAdLogParser

def LogRecord.texts : LogRecord → EntryTexts
  | .newClassAd key mytype targettype =>
    { key := some key, mytype := some mytype, targettype := some targettype }
  | .destroyClassAd key => { key := some key }
  | .setAttribute key name value _ =>
    { key := some key, name := some name, value := some value.val }
  | .deleteAttribute key name => { key := some key, name := some name }
  | .beginTransaction => {}
  | .endTransaction => {}
  | .historicalSequenceNumber number timestamp =>
    { key := some (decimal number.toNat), name := some (cstr "CreationTimestamp"),
      value := some (decimal timestamp.toNat) }

private theorem atoi_getOpType (r : LogRecord) : atoi (decimal r.getOpType) = r.getOpType := by
  have h : ∀ n ∈ [101,102,103,104,105,106,107], atoi (decimal n) = n := by decide
  exact h r.getOpType (by cases r <;> simp [LogRecord.getOpType])

private theorem readEntryBody_frames {r : LogRecord} (h : r.ReadsBack) :
    ∃ body bs, readEntryBody r.getOpType = some body ∧
      encode r = bytes (decimal r.getOpType) ++ [blank] ++ bs ∧ Frames body () bs r.texts := by
  cases r with
  | newClassAd key mytype targettype =>
    obtain ⟨hk,hm,ht⟩ := h
    have hf : Frames readNewClassAdBody () _ (LogRecord.newClassAd key
        (typeOfPlaceholder (typePlaceholder mytype))
        (typeOfPlaceholder (typePlaceholder targettype))).texts :=
      (readword_frames hk isspace_blank).bind
        ((readword_frames (typePlaceholder_isWord hm) isspace_blank).bind
          ((readword_frames (typePlaceholder_isWord ht) isspace_newline).bind
            (frames_pure _ _)))
    rw [typeOfPlaceholder_typePlaceholder hm,typeOfPlaceholder_typePlaceholder ht] at hf
    refine ⟨readNewClassAdBody,_,rfl,?_,hf⟩
    simp [encode,write,writeBody,writeHeader,LogRecord.getOpType]
  | destroyClassAd key =>
    refine ⟨readDestroyClassAdBody,_,rfl,?_,
      (readword_frames h isspace_newline).bind (frames_pure _ _)⟩
    simp [encode,write,writeBody,writeHeader,LogRecord.getOpType]
  | setAttribute key name value isDirty =>
    obtain ⟨hk,hn,hv,rfl⟩ := h
    have hnl : (hasNewline key || hasNewline name || hasNewline value.val) = false := by
      rw [(hasNewline_eq_false_iff key).mpr hk.noNewline,
        (hasNewline_eq_false_iff name).mpr hn.noNewline,(hasNewline_eq_false_iff _).mpr hv]
      rfl
    refine ⟨readSetAttributeBody,_,rfl,?_,(readword_frames hk isspace_blank).bind
      ((readword_frames hn isspace_blank).bind ((readline_frames hv).bind (frames_pure _ _)))⟩
    simp [encode,write,writeBody,writeHeader,LogRecord.getOpType,hnl]
  | deleteAttribute key name =>
    refine ⟨readDeleteAttributeBody,_,rfl,?_,(readword_frames h.1 isspace_blank).bind
      ((readword_frames h.2 isspace_newline).bind (frames_pure _ _))⟩
    simp [encode,write,writeBody,writeHeader,LogRecord.getOpType]
  | beginTransaction =>
    exact ⟨readBeginTransactionBody,_,rfl,rfl,readNewline_frames.bind (frames_pure _ _)⟩
  | endTransaction =>
    exact ⟨readEndTransactionBody,_,rfl,rfl,readNewline_frames.bind (frames_pure _ _)⟩
  | historicalSequenceNumber number timestamp =>
    have hlabel : IsWord (cstr "CreationTimestamp") := by decide
    let value : AttrText := ⟨decimal timestamp.toNat,decimal_ne_nil _⟩
    have hv : NoNewline value.val := (decimal_isWord timestamp.toNat).noNewline
    refine ⟨readLogHistoricalSNBody,_,rfl,?_,
      (readword_frames (decimal_isWord number.toNat) isspace_blank).bind
        ((readword_frames hlabel isspace_blank).bind
          ((readline_frames hv).bind (frames_pure _ _)))⟩
    simp [encode,write,writeBody,writeHeader,LogRecord.getOpType,value]

namespace ClassAdLogParser

theorem readLogEntry_record (p : ClassAdLogParser) {r : LogRecord} (h : r.ReadsBack)
    (done rest : List Byte) (hp : p.nextOffset = done.length) :
    p.readLogEntry (done ++ (encode r ++ rest)) = (.readSuccess,true,
      { nextOffset := done.length + (encode r).length
        lastCALogEntry := p.curCALogEntry
        curCALogEntry :=
          { offset := done.length, nextOffset := done.length + (encode r).length,
            opType := r.getOpType, texts := r.texts } }) := by
  obtain ⟨body,bs,hb,he,hf⟩ := readEntryBody_frames h
  have hw := (readword_frames (decimal_isWord r.getOpType) isspace_blank).reads (bs ++ rest)
  have hdrop : (done ++ (encode r ++ rest)).drop p.nextOffset =
      bytes (decimal r.getOpType) ++ [blank] ++ (bs ++ rest) := by
    rw [hp,drop_left,he,append_assoc _ bs]
  have hlen : (done ++ (encode r ++ rest)).length - rest.length =
      done.length + (encode r).length := by
    simp only [length_append]
    omega
  simp only [readLogEntry,hdrop,hw,atoi_getOpType,hb,hf.reads rest,hlen]
  simp only [startEntry,ClassAdLogEntry.init,hp]

theorem readLogEntry_cut (p : ClassAdLogParser) (done cut : List Byte)
    (hp : p.nextOffset = done.length)
    (hc : cut = [] ∨ ∃ r : LogRecord, r.ReadsBack ∧ cut <+: encode r ∧ cut ≠ encode r) :
    ∃ q, p.readLogEntry (done ++ cut) = (.readEof,false,q) ∧ q.nextOffset = p.nextOffset := by
  have hdrop : (done ++ cut).drop p.nextOffset = cut := by rw [hp,drop_left]
  rcases hc with rfl | ⟨r,hr,hpre,hne⟩
  · exact ⟨p,by simp only [readLogEntry,hdrop]; rfl,rfl⟩
  · obtain ⟨body,bs,hb,he,hf⟩ := readEntryBody_frames hr
    have hh := readword_frames (decimal_isWord r.getOpType) isspace_blank
    rw [he] at hpre hne
    rcases prefix_append_cases hpre with ⟨hx,hn⟩ | ⟨cut',rfl,hy⟩
    · exact ⟨p,by simp only [readLogEntry,hdrop,hh.starves cut hx hn],rfl⟩
    · have hn : cut' ≠ bs := fun h => hne (by rw [h])
      simp only [readLogEntry,hdrop,hh.reads cut',atoi_getOpType,hb,hf.starves cut' hy hn]
      exact ⟨_,rfl,rfl⟩

theorem readLogEntry_stream (p : ClassAdLogParser) (file : List Byte)
    (h : (p.readLogEntry file).2.1 = true) :
    (p.readLogEntry file).1 = .readSuccess ∨ (p.readLogEntry file).1 = .fatalError := by
  generalize hread : p.readLogEntry file = out at *
  unfold readLogEntry at hread
  split at hread
  · simp [← hread] at h
  · dsimp only at hread
    split at hread
    · simp [← hread] at h
    · split at hread
      · exact .inl (by rw [← hread])
      · split at hread
        · exact .inr (by rw [← hread])
        · exact .inr (by rw [← hread])
        · simp [← hread] at h

end ClassAdLogParser

end Condor
