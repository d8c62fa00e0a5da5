import Condor.ClassAdLog.Record

/-!
# Reading back what was written

`readword` and `readline` return exactly the words and lines, and framed texts are read back
exactly.
-/

namespace Condor

open Lib Lib.Reader List

variable {w : CString}

private theorem readUntil_frames {stop : Byte → Bool} {d : Byte}
    (hw : ∀ c ∈ w, stop c.val = false) (hd : stop d = true) (h0 : d ≠ 0) :
    Frames (readUntil stop) () (bytes w ++ [d]) w := by
  induction w with
  | nil =>
    constructor
    · intro rest
      simp [readUntil,readUntilFrom,h0,hd]
    · intro cut hc hne
      rcases List.prefix_cons_iff.mp hc with rfl | ⟨t,rfl,ht⟩
      · rfl
      · exact absurd (by rw [List.prefix_nil.mp ht]; rfl) hne
  | cons c w ih =>
    have hc := hw c (by simp)
    have hr := ih (fun e he => hw e (by simp [he]))
    constructor
    · intro rest
      have hread := hr.reads rest
      change readUntilFrom stop (c.val :: (bytes w ++ [d] ++ rest)) = _
      change readUntilFrom stop (bytes w ++ [d] ++ rest) = _ at hread
      simp only [readUntilFrom,c.property,hc,hread]
      simp
    · intro cut hcut hne
      rcases List.prefix_cons_iff.mp hcut with rfl | ⟨t,rfl,ht⟩
      · rfl
      · have hstarve := hr.starves t ht (fun he => hne (by rw [he]; rfl))
        change readUntilFrom stop t = _ at hstarve
        change readUntilFrom stop (c.val :: t) = _
        simp only [readUntilFrom,c.property,hc,hstarve]
        simp

variable {s rest : List Byte}

private theorem readUntil_eq_ok {stop : Byte → Bool} (h : readUntil stop s = (.ok w,rest)) :
    (∀ c ∈ w, stop c.val = false) ∧ ∃ d, stop d = true ∧ s = bytes w ++ d :: rest := by
  change readUntilFrom stop s = _ at h
  induction s generalizing w with
  | nil => simp [readUntilFrom] at h
  | cons b s ih =>
    by_cases h0 : b = 0
    · simp [readUntilFrom,h0] at h
    by_cases hb : stop b = true
    · simp only [readUntilFrom,h0,hb,dif_neg,not_false_eq_true,if_true,Prod.mk.injEq,
        Except.ok.injEq] at h
      obtain ⟨rfl,rfl⟩ := h
      exact ⟨by simp,b,hb,rfl⟩
    · cases hr : readUntilFrom stop s with
      | mk r tail =>
        cases r with
        | error e => simp [readUntilFrom,h0,hb,hr] at h
        | ok v =>
          simp only [readUntilFrom,h0,hb,hr,dif_neg,not_false_eq_true,Bool.false_eq_true,if_false,
            Prod.mk.injEq,Except.ok.injEq] at h
          obtain ⟨rfl,rfl⟩ := h
          obtain ⟨hv,d,hd,rfl⟩ := ih hr
          refine ⟨?_,d,hd,rfl⟩
          intro c hc
          rcases List.mem_cons.mp hc with rfl | hc
          · simpa using hb
          · exact hv c hc

private theorem nonEmpty_frames {p : Reader Byte Unit CString} {bs : List Byte} {w : AttrText}
    (h : Frames p () bs w.val) : Frames (nonEmpty p) () bs w := by
  obtain ⟨v,hv⟩ := w
  constructor
  · intro rest
    have hr := h.reads rest
    cases v with
    | nil => exact absurd rfl hv
    | cons c v => simp only [nonEmpty,hr]
  · intro cut hc hne
    simp only [nonEmpty,h.starves cut hc hne]

private theorem nonEmpty_eq_ok {p : Reader Byte Unit CString} {w : AttrText}
    (h : nonEmpty p s = (.ok w,rest)) : p s = (.ok w.val,rest) := by
  unfold nonEmpty at h
  split at h
  · next c v mid hp =>
    simp only [Prod.mk.injEq,Except.ok.injEq] at h
    rw [hp,← h.1,← h.2]
  · simp at h
  · simp at h

private theorem skipBlanks_cons {b : Byte} (h : isspace b = false) (s : List Byte) :
    skipBlanks (b :: s) = b :: s := by
  simp [skipBlanks,h]

private theorem skipBlanks_length (s : List Byte) : (skipBlanks s).length ≤ s.length := by
  induction s with
  | nil => simp [skipBlanks]
  | cons b s ih =>
    simp only [skipBlanks]
    split
    · simp only [length_cons]
      omega
    · exact Nat.le_refl _

theorem readword_frames {d : Byte} (hw : IsWord w) (hd : isspace d = true) :
    Frames readword () (bytes w ++ [d]) w := by
  have h0 : d ≠ 0 := by
    intro h
    rw [h] at hd
    exact absurd hd (by decide)
  have hf : Frames (nonEmpty (readUntil isspace)) () (bytes w ++ [d]) ⟨w,hw.1⟩ :=
    nonEmpty_frames (readUntil_frames hw.2 hd h0)
  obtain ⟨c,v,rfl⟩ := exists_cons_of_ne_nil hw.1
  have hc := hw.2 c (by simp)
  constructor
  · intro rest
    have hs : skipBlanks (bytes (c :: v) ++ [d] ++ rest) =
        bytes (c :: v) ++ [d] ++ rest := skipBlanks_cons hc _
    simp only [readword,hs,hf.reads rest]
  · intro cut hcut hne
    rcases List.prefix_cons_iff.mp hcut with rfl | ⟨t,rfl,ht⟩
    · rfl
    · simp only [readword,skipBlanks_cons hc,hf.starves _ hcut hne]

private theorem readword_eq_ok (h : readword s = (.ok w,rest)) :
    IsWord w ∧ rest.length < s.length := by
  unfold readword at h
  split at h
  · next v mid hp =>
    simp only [Prod.mk.injEq,Except.ok.injEq] at h
    obtain ⟨rfl,rfl⟩ := h
    obtain ⟨hv,d,_,hs⟩ := readUntil_eq_ok (nonEmpty_eq_ok hp)
    have hl := skipBlanks_length s
    rw [hs] at hl
    simp only [length_append,length_cons] at hl
    exact ⟨⟨v.property,hv⟩,by omega⟩
  · simp at h

theorem readline_frames {v : AttrText} (hv : NoNewline v.val) :
    Frames readline () (bytes v.val ++ [newline]) v :=
  nonEmpty_frames (readUntil_frames (fun c hc => by simpa using hv c hc) (by simp) (by decide))

private theorem readline_eq_ok {v : AttrText} (h : readline s = (.ok v,rest)) :
    NoNewline v.val ∧ rest.length < s.length := by
  obtain ⟨hv,d,_,rfl⟩ := readUntil_eq_ok (nonEmpty_eq_ok h)
  refine ⟨fun c hc => by simpa using hv c hc,?_⟩
  simp only [length_append,length_cons]
  omega

theorem readNewline_frames : Frames readNewline () [newline] () := by
  constructor
  · intro rest
    simp [readNewline]
  · intro cut hc hne
    rcases List.prefix_cons_iff.mp hc with rfl | ⟨t,rfl,ht⟩
    · rfl
    · exact absurd (by rw [List.prefix_nil.mp ht]) hne

def TypeReadsBack (s : CString) : Prop := s = [] ∨ (IsWord s ∧ s ≠ emptyClassAdTypeName)
deriving Decidable

def LogRecord.ReadsBack : LogRecord → Prop
  | .newClassAd key mytype targettype =>
    IsWord key ∧ TypeReadsBack mytype ∧ TypeReadsBack targettype
  | .destroyClassAd key => IsWord key
  | .setAttribute key name value isDirty =>
    IsWord key ∧ IsWord name ∧ NoNewline value.val ∧ isDirty = false
  | .deleteAttribute key name => IsWord key ∧ IsWord name
  | .beginTransaction => True
  | .endTransaction => True
  | .historicalSequenceNumber .. => True

instance (r : LogRecord) : Decidable r.ReadsBack := by
  cases r <;> unfold LogRecord.ReadsBack <;> infer_instance

def encode (r : LogRecord) : List Byte := (write r).1

theorem typePlaceholder_isWord {s : CString} (h : TypeReadsBack s) :
    IsWord (typePlaceholder s) := by
  unfold typePlaceholder
  split
  · decide
  · next hne => exact (h.resolve_left hne).1

theorem typeOfPlaceholder_typePlaceholder {s : CString} (h : TypeReadsBack s) :
    typeOfPlaceholder (typePlaceholder s) = s := by
  unfold typePlaceholder
  split
  · next he => rw [he]; rfl
  · next hne => rw [typeOfPlaceholder,if_neg (h.resolve_left hne).2]

theorem typeOfPlaceholder_readsBack (h : IsWord w) :
    TypeReadsBack (typeOfPlaceholder w) := by
  unfold typeOfPlaceholder
  split
  · exact Or.inl rfl
  · next hne => exact Or.inr ⟨h,hne⟩

theorem hasNewline_eq_false_iff (s : CString) : hasNewline s = false ↔ NoNewline s := by
  simp [hasNewline,NoNewline]

theorem isspace_blank : isspace blank = true := by decide

theorem isspace_newline : isspace newline = true := by decide

variable {body : Reader Byte Unit LogRecord} {r : LogRecord}

private theorem readLogEntry_frames_body {n : Nat}
    {bs : List Byte} (hop : readBody (atoi (decimal n)) = some body) (hb : Frames body () bs r) :
    Frames readLogEntry .null (bytes (decimal n) ++ [blank] ++ bs) r := by
  have hh := readword_frames (decimal_isWord n) isspace_blank
  constructor
  · intro rest
    have hw := hh.reads (bs ++ rest)
    have he : bytes (decimal n) ++ [blank] ++ bs ++ rest =
        bytes (decimal n) ++ [blank] ++ (bs ++ rest) := append_assoc _ _ _
    simp only [readLogEntry,he,hw,instantiateLogEntry,hop,hb.reads rest]
  · intro cut hc hne
    rcases prefix_append_cases hc with ⟨hx,hn⟩ | ⟨cut',rfl,hy⟩
    · simp only [readLogEntry,hh.starves cut hx hn]
    · have hn : cut' ≠ bs := fun he => hne (by rw [he])
      simp only [readLogEntry,hh.reads cut',instantiateLogEntry,hop,hb.starves cut' hy hn]
      rfl

theorem readLogEntry_frames (h : r.ReadsBack) :
    Frames readLogEntry .null (encode r) r := by
  cases r with
  | newClassAd key mytype targettype =>
    obtain ⟨hk,hm,ht⟩ := h
    have hf := readLogEntry_frames_body (n := 101) rfl
      ((readword_frames hk isspace_blank).bind
        ((readword_frames (typePlaceholder_isWord hm) isspace_blank).bind
          ((readword_frames (typePlaceholder_isWord ht) isspace_newline).bind
            (frames_pure () (LogRecord.newClassAd key
              (typeOfPlaceholder (typePlaceholder mytype))
              (typeOfPlaceholder (typePlaceholder targettype)))))))
    rw [typeOfPlaceholder_typePlaceholder hm,typeOfPlaceholder_typePlaceholder ht] at hf
    simpa only [encode,write,writeBody,writeHeader,LogRecord.getOpType,append_assoc,
      append_nil] using hf
  | destroyClassAd key =>
    have hf := readLogEntry_frames_body (n := 102) rfl
      ((readword_frames h isspace_newline).bind (frames_pure () (LogRecord.destroyClassAd key)))
    simpa only [encode,write,writeBody,writeHeader,LogRecord.getOpType,append_assoc,
      append_nil] using hf
  | setAttribute key name value isDirty =>
    obtain ⟨hk,hn,hv,rfl⟩ := h
    have hf := readLogEntry_frames_body (n := 103) rfl
      ((readword_frames hk isspace_blank).bind
        ((readword_frames hn isspace_blank).bind
          ((readline_frames hv).bind
            (frames_pure () (LogRecord.setAttribute key name value false)))))
    have hnl : (hasNewline key || hasNewline name || hasNewline value.val) = false := by
      rw [(hasNewline_eq_false_iff key).mpr hk.noNewline,
        (hasNewline_eq_false_iff name).mpr hn.noNewline,(hasNewline_eq_false_iff _).mpr hv]
      rfl
    simpa only [encode,write,writeBody,writeHeader,LogRecord.getOpType,append_assoc,
      append_nil,hnl,Bool.false_eq_true,if_false] using hf
  | deleteAttribute key name =>
    obtain ⟨hk,hn⟩ := h
    have hf := readLogEntry_frames_body (n := 104) rfl
      ((readword_frames hk isspace_blank).bind
        ((readword_frames hn isspace_newline).bind
          (frames_pure () (LogRecord.deleteAttribute key name))))
    simpa only [encode,write,writeBody,writeHeader,LogRecord.getOpType,append_assoc,
      append_nil] using hf
  | beginTransaction =>
    exact readLogEntry_frames_body (n := 105) rfl
      (readNewline_frames.bind (frames_pure () LogRecord.beginTransaction))
  | endTransaction =>
    exact readLogEntry_frames_body (n := 106) rfl
      (readNewline_frames.bind (frames_pure () LogRecord.endTransaction))
  | historicalSequenceNumber number timestamp =>
    have hlabel : IsWord (cstr "CreationTimestamp") := by decide
    have hf := readLogEntry_frames_body (n := 107) rfl
      ((readword_frames (decimal_isWord number.toNat) isspace_blank).bind
        ((readword_frames hlabel isspace_blank).bind
          ((readword_frames (decimal_isWord timestamp.toNat) isspace_newline).bind
            (frames_pure () (LogRecord.historicalSequenceNumber
              (sscanfUnsignedLong (decimal number.toNat) 0)
              (sscanfUnsignedLong (decimal timestamp.toNat) 0))))))
    rw [sscanfUnsignedLong_decimal,sscanfUnsignedLong_decimal] at hf
    simpa only [encode,write,writeBody,writeHeader,LogRecord.getOpType,append_assoc,
      append_nil] using hf

private theorem readword_shrinks : Shrinks readword :=
  fun _ _ _ h => Nat.le_of_lt (readword_eq_ok h).2

private theorem readline_shrinks : Shrinks readline :=
  fun _ _ _ h => Nat.le_of_lt (readline_eq_ok h).2

private theorem readNewline_shrinks : Shrinks readNewline := by
  intro s a rest h
  cases s with
  | nil => simp [readNewline] at h
  | cons b s =>
    simp only [readNewline] at h
    split at h
    · rw [← (Prod.mk.inj h).2]
      exact Nat.le_succ _
    · simp at h

private theorem readBody_shrinks {op : Int} (hop : readBody op = some body) : Shrinks body := by
  unfold readBody at hop
  split_ifs at hop <;> rw [← Option.some.inj hop]
  · exact readword_shrinks.bind fun _ => readword_shrinks.bind fun _ =>
      readword_shrinks.bind fun _ => shrinks_pure _
  · exact readword_shrinks.bind fun _ => shrinks_pure _
  · exact readword_shrinks.bind fun _ => readword_shrinks.bind fun _ =>
      readline_shrinks.bind fun _ => shrinks_pure _
  · exact readword_shrinks.bind fun _ => readword_shrinks.bind fun _ => shrinks_pure _
  · exact readNewline_shrinks.bind fun _ => shrinks_pure _
  · exact readNewline_shrinks.bind fun _ => shrinks_pure _
  · exact readword_shrinks.bind fun _ => readword_shrinks.bind fun _ =>
      readword_shrinks.bind fun _ => shrinks_pure _

private theorem pure_eq_ok {a b : LogRecord}
    (h : (pure a : Reader Byte Unit LogRecord) s = (.ok b,rest)) : b = a := by
  rw [pure_apply] at h
  exact (Except.ok.inj (Prod.mk.inj h).1).symm

private theorem readBody_readsBack {op : Int} (hop : readBody op = some body)
    (h : body s = (.ok r,rest)) : r.ReadsBack := by
  unfold readBody at hop
  split_ifs at hop <;> rw [← Option.some.inj hop] at h
  · obtain ⟨key,s1,hk,h⟩ := bind_eq_ok h
    obtain ⟨my,s2,hm,h⟩ := bind_eq_ok h
    obtain ⟨target,s3,ht,h⟩ := bind_eq_ok h
    rw [pure_eq_ok h]
    exact ⟨(readword_eq_ok hk).1,typeOfPlaceholder_readsBack (readword_eq_ok hm).1,
      typeOfPlaceholder_readsBack (readword_eq_ok ht).1⟩
  · obtain ⟨key,s1,hk,h⟩ := bind_eq_ok h
    rw [pure_eq_ok h]
    exact (readword_eq_ok hk).1
  · obtain ⟨key,s1,hk,h⟩ := bind_eq_ok h
    obtain ⟨name,s2,hn,h⟩ := bind_eq_ok h
    obtain ⟨value,s3,hv,h⟩ := bind_eq_ok h
    rw [pure_eq_ok h]
    exact ⟨(readword_eq_ok hk).1,(readword_eq_ok hn).1,(readline_eq_ok hv).1,rfl⟩
  · obtain ⟨key,s1,hk,h⟩ := bind_eq_ok h
    obtain ⟨name,s2,hn,h⟩ := bind_eq_ok h
    rw [pure_eq_ok h]
    exact ⟨(readword_eq_ok hk).1,(readword_eq_ok hn).1⟩
  · obtain ⟨_,s1,_,h⟩ := bind_eq_ok h
    rw [pure_eq_ok h]
    trivial
  · obtain ⟨_,s1,_,h⟩ := bind_eq_ok h
    rw [pure_eq_ok h]
    trivial
  · obtain ⟨_,s1,_,h⟩ := bind_eq_ok h
    obtain ⟨_,s2,_,h⟩ := bind_eq_ok h
    obtain ⟨_,s3,_,h⟩ := bind_eq_ok h
    rw [pure_eq_ok h]
    trivial

private theorem readLogEntry_eq_ok (h : readLogEntry s = (.ok r,rest)) :
    ∃ op mid body, readword s = (.ok op,mid) ∧ readBody (atoi op) = some body ∧
      body mid = (.ok r,rest) := by
  unfold readLogEntry at h
  split at h
  · simp at h
  · next op mid hw =>
    unfold instantiateLogEntry at h
    split at h
    · simp at h
    · next body hb =>
      split at h
      · next r' rest' hr =>
        simp only [Prod.mk.injEq,Except.ok.injEq] at h
        exact ⟨op,mid,body,hw,hb,by rw [hr,h.1,h.2]⟩
      · simp at h

theorem readLogEntry_readsBack (h : readLogEntry s = (.ok r,rest)) : r.ReadsBack := by
  obtain ⟨op,mid,body,_,hb,hr⟩ := readLogEntry_eq_ok h
  exact readBody_readsBack hb hr

theorem readLogEntry_consumes : Consumes readLogEntry := by
  intro s r rest h
  obtain ⟨op,mid,body,hw,hb,hr⟩ := readLogEntry_eq_ok h
  exact (readBody_shrinks hb mid r rest hr).trans_lt (readword_eq_ok hw).2

theorem readLogEntry_nil : readLogEntry [] = (.error .null,[]) := rfl

/-- The part of `ReadsBack` that `Write` does not check: the texts are words, and the dirty mark is
off. -/
def LogRecord.TextsAreWords : LogRecord → Prop
  | .newClassAd key mytype targettype =>
    IsWord key ∧ TypeReadsBack mytype ∧ TypeReadsBack targettype
  | .destroyClassAd key => IsWord key
  | .setAttribute key name _ isDirty => IsWord key ∧ IsWord name ∧ isDirty = false
  | .deleteAttribute key name => IsWord key ∧ IsWord name
  | .beginTransaction => True
  | .endTransaction => True
  | .historicalSequenceNumber .. => True

instance (r : LogRecord) : Decidable r.TextsAreWords := by
  cases r <;> unfold LogRecord.TextsAreWords <;> infer_instance

theorem readsBack_iff (r : LogRecord) :
    r.ReadsBack ↔ r.TextsAreWords ∧ (write r).2 = true := by
  cases r with
  | setAttribute key name value isDirty =>
    have hwrite : (write (.setAttribute key name value isDirty)).2 = true ↔
        NoNewline key ∧ NoNewline name ∧ NoNewline value.val := by
      rw [← hasNewline_eq_false_iff,← hasNewline_eq_false_iff,← hasNewline_eq_false_iff]
      cases hk : hasNewline key <;> cases hn : hasNewline name <;>
        cases hv : hasNewline value.val <;> simp [write,writeBody,hk,hn,hv]
    rw [hwrite]
    constructor
    · rintro ⟨hk,hn,hv,hd⟩
      exact ⟨⟨hk,hn,hd⟩,hk.noNewline,hn.noNewline,hv⟩
    · rintro ⟨⟨hk,hn,hd⟩,_,_,hv⟩
      exact ⟨hk,hn,hv,hd⟩
  | _ => exact ⟨fun h => ⟨h,rfl⟩,fun h => h.1⟩

/-- A record whose `Write` succeeds is read back, with everything behind it untouched, exactly
when its texts are words. -/
theorem readLogEntry_write_iff (r : LogRecord) (hw : (write r).2 = true) :
    (∀ s, readLogEntry ((write r).1 ++ s) = (.ok r,s)) ↔ r.TextsAreWords := by
  constructor
  · intro h
    exact ((readsBack_iff r).mp (readLogEntry_readsBack (h []))).1
  · intro h
    exact (readLogEntry_frames ((readsBack_iff r).mpr ⟨h,hw⟩)).reads

/-- One job attribute, written and read back. -/
theorem readLogEntry_write_iff_attribute :
    let r := LogRecord.mkSetAttribute (cstr "1.0") (cstr "JobStatus") (cstr "2") false
    (write r).2 = true ∧ r.TextsAreWords ∧
      ∀ s, readLogEntry ((write r).1 ++ s) = (.ok r,s) := by
  refine ⟨by decide,by decide,?_⟩
  exact (readLogEntry_write_iff _ (by decide)).mpr (by decide)

/-- A key with a newline is written without complaint, and the text behind the newline is read back
as a record. -/
theorem readLogEntry_write_injection :
    let r := LogRecord.destroyClassAd (cstr "1.0\n102 2.0")
    (write r).2 = true ∧ ¬ ∀ s, readLogEntry ((write r).1 ++ s) = (.ok r,s) := by
  refine ⟨by decide,fun h => ?_⟩
  have hr := congrArg Prod.fst (h [])
  have hne : (readLogEntry ((write (.destroyClassAd (cstr "1.0\n102 2.0"))).1 ++ [])).1 =
      .ok (.destroyClassAd (cstr "1.0")) := by decide
  rw [hne] at hr
  exact absurd (Except.ok.inj hr) (by decide)

end Condor
