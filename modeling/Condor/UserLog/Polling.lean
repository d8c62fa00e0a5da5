import Condor.Lib.Run
import Condor.UserLog.ReadUserLog

/-!
# Polling a growing log

A writer appends whole records, a reader sees prefixes of the log that grow from call to call and
between the two attempts of one call.
-/

namespace Condor.UserLog

open Condor.Lib List Option

/-- A record as the writer puts it out: an event of a known kind, and the lines that `writeEvent`
writes of it. -/
structure Record where
  number : Nat
  header : Header
  body : List Byte
  known : instantiable number = true
  lines : body.getLast? = some newline

namespace Record

def tail (r : Record) : List Byte := headerFields r.header ++ r.body

def digits (r : Record) : List Byte := zeroPadded 3 r.number

def text (r : Record) : List Byte := writeHeader r.number r.header ++ r.body ++ synchDelimiter

end Record

def log (rs : List Record) : List Byte := rs.flatMap Record.text

section

variable {ε : Type} (readEvent : ReadEvent ε)

/-- Nothing, or whole lines. -/
def WholeLines (s : List Byte) : Prop := s = [] ∨ s.getLast? = some newline

/-- An event read from whole lines in front of a delimiter line that stays in place does not depend
on what is behind that line. -/
def StopsAtDelimiter : Prop :=
  ∀ n x e k t t', instantiable n = true → WholeLines x → k ≤ x.length →
    readEvent n (x ++ synchDelimiter ++ t) = (some e,k) →
      readEvent n (x ++ synchDelimiter ++ t') = (some e,k)

/-- Each record, read with the rest of the log behind it, is its event. -/
def Legible : List Record → List (Event ε) → Prop
  | [], [] => True
  | r :: rs, e :: es =>
    readEventOld readEvent (r.text ++ log rs) (r.text ++ log rs) = ⟨.ok,some e,r.text.length⟩ ∧
      Legible rs es
  | _, _ => False

def parses (s : List Byte) : Bool :=
  match (scanf [.int] s).converted with
  | number :: _ => (getEvent readEvent number (scanf [.int] s).rest).1.isSome
  | [] => false

end

private theorem number_digits : ∀ n : Nat, n < 34 → instantiable (n : Int) = true →
    (zeroPadded 3 (n : Int)).length = 3 ∧ (∀ b ∈ zeroPadded 3 (n : Int), isdigit b = true) ∧
      digitsValue (zeroPadded 3 (n : Int)) = n ∧
      ∀ j < 4, instantiable (digitsValue ((zeroPadded 3 (n : Int)).take j) : Int) = true := by
  decide +kernel

namespace Record

variable (r : Record)

private theorem number_lt : r.number < 34 := by
  have h := r.known
  simp only [instantiable,Bool.or_eq_true,Bool.and_eq_true,decide_eq_true_eq,beq_iff_eq] at h
  omega

private theorem text_eq : r.text = r.digits ++ (r.tail ++ synchDelimiter) := by
  rw [text,writeHeader,digits,tail,append_assoc,append_assoc,append_assoc]

theorem text_length_pos : 0 < r.text.length := by
  rw [text,length_append]
  exact Nat.lt_of_lt_of_le (by decide : 0 < synchDelimiter.length) (Nat.le_add_left _ _)

private theorem head_tail (s : List Byte) : ∀ b ∈ (r.tail ++ s).head?, isdigit b = false := by
  intro b hb
  obtain rfl : 32 = b := some.inj hb
  rfl

private theorem wholeLines_tail : WholeLines r.tail := by
  right
  rw [tail,getLast?_append,r.lines]
  rfl

private theorem digits_length : r.digits.length = 3 :=
  (number_digits r.number r.number_lt r.known).1

private theorem isdigit_digits : ∀ b ∈ r.digits, isdigit b = true :=
  (number_digits r.number r.number_lt r.known).2.1

private theorem scanf_text (s : List Byte) :
    scanf [.int] (r.text ++ s) = ⟨[(r.number : Int)],r.tail ++ synchDelimiter ++ s,false⟩ := by
  have hne : r.digits ≠ [] := by
    intro h
    have hlen := r.digits_length
    rw [h] at hlen
    cases hlen
  rw [text_eq,append_assoc,append_assoc,
    scanf_digits hne r.isdigit_digits (r.head_tail _)]
  have hvalue : digitsValue r.digits = r.number :=
    (number_digits r.number r.number_lt r.known).2.2.1
  rw [hvalue]

private theorem scanf_take {j : Nat} (hj : 0 < j) :
    ∃ v rest, scanf [.int] (r.text.take j) = ⟨[v],rest,false⟩ ∧ instantiable v = true := by
  have hlen := r.digits_length
  have htake : r.text.take j = r.digits.take j ++ (r.tail ++ synchDelimiter).take (j - 3) := by
    rw [text_eq,take_append,hlen]
  have hne : r.digits.take j ≠ [] := by
    intro h
    have hl := congrArg List.length h
    rw [length_take,hlen,length_nil] at hl
    omega
  have hds : ∀ b ∈ r.digits.take j, isdigit b = true := fun b hb =>
    r.isdigit_digits b (mem_of_mem_take hb)
  have hs : ∀ b ∈ ((r.tail ++ synchDelimiter).take (j - 3)).head?, isdigit b = false := by
    intro b hb
    apply r.head_tail synchDelimiter
    rw [head?_take] at hb
    split at hb
    · cases hb
    · exact hb
  refine ⟨_,_,by rw [htake,scanf_digits hne hds hs],?_⟩
  have hcut : r.digits.take j = r.digits.take (min j 3) := by
    rw [take_eq_take_min,hlen]
  rw [hcut]
  exact (number_digits r.number r.number_lt r.known).2.2.2 (min j 3) (by omega)

end Record

private theorem synchronizeFrom_length {piece s u : List Byte}
    (h : synchronizeFrom piece s = some u) :
    u.length + 4 ≤ piece.length + s.length ∧ u.length < s.length := by
  induction s generalizing piece with
  | nil => cases h
  | cons b s ih =>
    rw [synchronizeFrom] at h
    split at h
    · split at h
      · next hpiece =>
        obtain rfl := some.inj h
        have hlen := congrArg List.length hpiece
        rw [length_append,length_singleton] at hlen
        have h4 : synchDelimiter.length = 4 := rfl
        rw [length_cons]
        omega
      · obtain ⟨h1,h2⟩ := ih h
        rw [length_nil] at h1
        rw [length_cons]
        omega
    · obtain ⟨h1,h2⟩ := ih h
      rw [length_append,length_singleton] at h1
      rw [length_cons]
      omega

private theorem synchronizeFrom_local {piece y t u : List Byte}
    (h : synchronizeFrom piece (y ++ t) = some u)
    (hu : u.length = t.length) (t' : List Byte) : synchronizeFrom piece (y ++ t') = some t' := by
  induction y generalizing piece with
  | nil =>
    rw [nil_append] at h
    have hlen := (synchronizeFrom_length h).2
    omega
  | cons b y ih =>
    rw [cons_append,synchronizeFrom] at h ⊢
    split at h
    · next hend =>
      rw [if_pos hend]
      split at h
      · next hpiece =>
        obtain rfl := some.inj h
        rw [length_append] at hu
        have hnil : y = [] := eq_nil_of_length_eq_zero (by omega)
        rw [if_pos hpiece,hnil,nil_append]
      · next hpiece =>
        rw [if_neg hpiece]
        exact ih h
    · next hend =>
      rw [if_neg hend]
      exact ih h

private theorem WholeLines.of_suffix {s u : List Byte} (h : WholeLines s)
    (hu : u <:+ s) : WholeLines u := by
  obtain ⟨p,rfl⟩ := hu
  cases hlast : u.getLast? with
  | none => exact .inl (List.getLast?_eq_none_iff.mp hlast)
  | some b =>
    right
    rcases h with h | h
    · rw [(List.append_eq_nil_iff.mp h).2] at hlast
      cases hlast
    · rw [getLast?_append,hlast] at h
      exact hlast.trans h

private theorem ends_dot : Ends 46 := by
  constructor <;> decide

private theorem readHeader_local {y t rest : List Byte} {header : Header}
    (h : readHeader (y ++ synchDelimiter ++ t) = (some header,rest))
    (hlen : t.length + 4 ≤ rest.length) (t' : List Byte) :
    ∃ w, rest = w ++ synchDelimiter ++ t ∧ w <:+ y ∧
      readHeader (y ++ synchDelimiter ++ t') = (some header,w ++ synchDelimiter ++ t') := by
  have hcut : ∀ x t : List Byte, x ++ synchDelimiter ++ t = x ++ 46 :: (46 :: 46 :: 10 :: t) := by
    intro x t
    rw [append_assoc]
    rfl
  rw [readHeader,hcut] at h
  split at h
  · next cluster proc subproc month day hour minute second heq =>
    obtain ⟨hheader,hrest⟩ := Prod.mk.inj h
    rw [← hrest] at hlen
    obtain ⟨w,hw,hw'⟩ := scanf_local ends_dot headerFormat y (46 :: 46 :: 10 :: t)
      (46 :: 46 :: 10 :: t') hlen
    have hsuffix := scanf_suffix headerFormat (y ++ 46 :: (46 :: 46 :: 10 :: t))
    rw [hw] at hsuffix
    refine ⟨w,by rw [← hrest,hw,hcut],List.suffix_append_self_iff.mp hsuffix,?_⟩
    rw [readHeader,hcut,hw']
    dsimp only
    rw [heq,hcut,← hheader]
  · cases h

section

variable {ε : Type} {readEvent : ReadEvent ε}

private theorem getEvent_local (hstops : StopsAtDelimiter readEvent) {number : Int}
    {y t rest : List Byte}
    {event : Event ε} (hknown : instantiable number = true) (hy : WholeLines y)
    (h : getEvent readEvent number (y ++ synchDelimiter ++ t) = (some event,rest))
    (hlen : t.length + 4 ≤ rest.length) (t' : List Byte) :
    ∃ w, rest = w ++ synchDelimiter ++ t ∧
      getEvent readEvent number (y ++ synchDelimiter ++ t') =
        (some event,w ++ synchDelimiter ++ t') := by
  rw [getEvent] at h
  split at h
  · cases h
  · next header hrest heq =>
    obtain ⟨hevent,hdrop⟩ := Prod.mk.inj h
    have h4 : synchDelimiter.length = 4 := rfl
    have hle : t.length + 4 ≤ hrest.length := by
      rw [← hdrop,length_drop] at hlen
      omega
    obtain ⟨w,rfl,hsuffix,hheader⟩ := readHeader_local heq hle t'
    obtain ⟨e,he,rfl⟩ := Option.map_eq_some_iff.mp hevent
    have hread : (readEvent number (w ++ synchDelimiter ++ t)).2 ≤ w.length := by
      rw [← hdrop,length_drop,length_append,length_append,h4] at hlen
      omega
    have hsame := hstops number w e _ t t' hknown (hy.of_suffix hsuffix) hread (Prod.ext he rfl)
    have hcut : ∀ k ≤ w.length, ∀ s : List Byte,
        (w ++ synchDelimiter ++ s).drop k = w.drop k ++ synchDelimiter ++ s := by
      intro k hk s
      rw [append_assoc,append_assoc,drop_append_of_le_length hk]
    refine ⟨_,by rw [← hdrop,hcut _ hread],?_⟩
    rw [getEvent,hheader]
    dsimp only
    rw [hsame,hcut _ hread]
    rfl

variable {r : Record}

private theorem retry_text (number : Int) (first : Option (Event ε)) (t : List Byte) :
    (retry readEvent number first (r.text ++ t)).outcome ≠ .ok := by
  rw [retry]
  split
  · exact fun h => nomatch h
  · rw [r.scanf_text]
    dsimp only
    split <;> exact fun h => nomatch h

private theorem readEventOld_whole (hstops : StopsAtDelimiter readEvent) {t : List Byte}
    {e : Event ε}
    (h : readEventOld readEvent (r.text ++ t) (r.text ++ t) = ⟨.ok,some e,r.text.length⟩)
    (t' later : List Byte) :
    readEventOld readEvent (r.text ++ t') later = ⟨.ok,some e,r.text.length⟩ := by
  rw [readEventOld,r.scanf_text] at h ⊢
  dsimp only at h ⊢
  rw [if_pos r.known] at h ⊢
  split at h
  · next event rest heq =>
    rw [finish] at h
    split at h
    · next u hu =>
      obtain ⟨-,hevent,hadvance⟩ := Answer.mk.inj h
      obtain rfl := some.inj hevent
      rw [length_append] at hadvance
      have hpos := r.text_length_pos
      have hlen : u.length = t.length := by omega
      have hsync := (synchronizeFrom_length hu).1
      rw [length_nil,hlen] at hsync
      obtain ⟨w,rfl,hget⟩ := getEvent_local hstops r.known r.wholeLines_tail heq (by omega) t'
      have hfound : synchronize (w ++ synchDelimiter ++ t') = some t' :=
        synchronizeFrom_local hu hlen t'
      rw [hget]
      dsimp only
      rw [finish,hfound,length_append]
      simp
    · cases h
  · exact absurd (congrArg Answer.outcome h) (retry_text _ _ _)

private theorem readEventOld_part {j : Nat} {later : List Byte} (hj : 0 < j)
    (hparses : parses readEvent (r.text.take j) = false) (hsync : synchronize later = none) :
    readEventOld readEvent (r.text.take j) later = ⟨.noEvent,none,0⟩ := by
  obtain ⟨v,rest,hscan,hknown⟩ := r.scanf_take hj
  rw [parses,hscan] at hparses
  rw [readEventOld,hscan]
  dsimp only at hparses ⊢
  rw [if_pos hknown]
  split
  · next event rest' heq =>
    rw [heq] at hparses
    cases hparses
  · rw [retry,hsync]

end

def boundary (rs : List Record) (k : Nat) : Nat := (log (rs.take k)).length

private theorem boundary_succ {rs : List Record} {k : Nat} {r : Record} (h : rs[k]? = some r) :
    boundary rs (k + 1) = boundary rs k + r.text.length := by
  rw [boundary,boundary,take_add_one,h]
  simp [log]

private theorem drop_boundary (rs : List Record) (k : Nat) :
    (log rs).drop (boundary rs k) = log (rs.drop k) := by
  have h : log rs = log (rs.take k) ++ log (rs.drop k) := by
    rw [log,log,log,← flatMap_append,take_append_drop]
  rw [boundary,h]
  exact drop_left

def recordAt : List Record → Nat → Option Record
  | [], _ => none
  | r :: rs, pos =>
    if pos = 0 then some r else if pos < r.text.length then none
    else recordAt rs (pos - r.text.length)

private theorem recordAt_boundary (rs : List Record) (k : Nat) : recordAt rs
    (boundary rs k) = rs[k]? := by
  induction rs generalizing k with
  | nil => rfl
  | cons r rs ih =>
    cases k with
    | zero => rfl
    | succ k =>
      have hb : boundary (r :: rs) (k + 1) = r.text.length + boundary rs k := by
        simp [boundary,log]
      have hpos := r.text_length_pos
      rw [recordAt,hb,if_neg (by omega),if_neg (by omega),Nat.add_sub_cancel_left,ih]
      rfl

/-- How much of the log is there when a call begins, and after its wait. -/
structure Reveal where
  now : Nat
  later : Nat

structure Reader (ε : Type) where
  pos : Nat
  shown : Nat
  events : List (Event ε)
  outcomes : List Outcome

section

variable {ε : Type}

def Reader.start : Reader ε := ⟨0,0,[],[]⟩

/-- The reader is shown a growing part of the log. -/
def Grows (rs : List Record) (s : Reader ε) (c : Reveal) : Prop :=
  s.shown ≤ c.now ∧ c.now ≤ c.later ∧ c.later ≤ (log rs).length
deriving Decidable

def Reader.sees (rs : List Record) (s : Reader ε) (n : Nat) : List Byte :=
  ((log rs).take n).drop s.pos

variable (readEvent : ReadEvent ε)

def answer (rs : List Record) (s : Reader ε) (c : Reveal) : Answer ε :=
  readEventOld readEvent (s.sees rs c.now) (s.sees rs c.later)

def poll (rs : List Record) (s : Reader ε) (c : Reveal) : Option (Reader ε) :=
  if Grows rs s c then
    let a := answer readEvent rs s c
    some ⟨s.pos + a.advance,c.later,s.events ++ a.event.toList,s.outcomes ++ [a.outcome]⟩
  else none

/-- When only a part of the next record is there, it does not read as an event, and no delimiter
has come up by the second attempt. -/
def Undisturbed (rs : List Record) (s : Reader ε) (c : Reveal) : Prop :=
  ∀ r ∈ recordAt rs s.pos, s.pos < c.now → c.now < s.pos + r.text.length →
    parses readEvent (s.sees rs c.now) = false ∧ synchronize (s.sees rs c.later) = none

instance (rs : List Record) (s : Reader ε) (c : Reveal) :
    Decidable (Undisturbed readEvent rs s c) :=
  match h : recordAt rs s.pos with
  | none => .isTrue fun _ hr => nomatch h.symm.trans hr
  | some r => decidable_of_iff (s.pos < c.now → c.now < s.pos + r.text.length →
      parses readEvent (s.sees rs c.now) = false ∧ synchronize (s.sees rs c.later) = none)
      ⟨fun hu _ hr' => some.inj (h.symm.trans hr') ▸ hu,fun hu => hu r h⟩

/-- The answer of a reader that has returned some records and returns the next one as soon as it
is complete. -/
def dueAnswer (rs : List Record) (es : List (Event ε)) (k now : Nat) : Answer ε :=
  if k < rs.length ∧ boundary rs (k + 1) ≤ now then
    ⟨.ok,es[k]?,boundary rs (k + 1) - boundary rs k⟩
  else ⟨.noEvent,none,0⟩

variable {readEvent} {rs : List Record} {es : List (Event ε)}

theorem Legible.get (h : Legible readEvent rs es) {k : Nat} {r : Record} (hr : rs[k]? = some r) :
    ∃ e, es[k]? = some e ∧ readEventOld readEvent (r.text ++ log (rs.drop (k + 1)))
      (r.text ++ log (rs.drop (k + 1))) = ⟨.ok,some e,r.text.length⟩ := by
  induction rs generalizing es k with
  | nil => cases hr
  | cons r' rs ih =>
    cases es with
    | nil => exact h.elim
    | cons e es =>
      cases k with
      | zero =>
        obtain rfl := some.inj hr
        exact ⟨e,rfl,h.1⟩
      | succ k => exact ih h.2 hr

/-- The events returned are those before the place of the reader, and no call was an error. -/
structure Polled (rs : List Record) (es : List (Event ε)) (s : Reader ε) : Prop where
  pos : s.pos = boundary rs s.events.length
  le : s.events.length ≤ rs.length
  events : s.events = es.take s.events.length
  outcomes : ∀ o ∈ s.outcomes, o = .ok ∨ o = .noEvent
  count : s.outcomes.count .ok = s.events.length

private theorem polled_start : Polled rs es Reader.start where
  pos := rfl
  le := Nat.zero_le _
  events := rfl
  outcomes := fun _ ho => nomatch ho
  count := rfl

private theorem Reader.sees_eq {s : Reader ε} {k : Nat} (hpos : s.pos = boundary rs k) (n : Nat) :
    s.sees rs n = (log (rs.drop k)).take (n - s.pos) := by
  rw [sees,drop_take,hpos,drop_boundary]

theorem Polled.answer (hstops : StopsAtDelimiter readEvent) (hlegible : Legible readEvent rs es)
    {s : Reader ε} (h : Polled rs es s) {c : Reveal} (hc : Undisturbed readEvent rs s c) :
    answer readEvent rs s c = dueAnswer rs es s.events.length c.now := by
  rw [UserLog.answer,dueAnswer]
  cases hr : rs[s.events.length]? with
  | none =>
    have hlen := List.getElem?_eq_none_iff.mp hr
    rw [if_neg (by omega),Reader.sees_eq h.pos,drop_eq_nil_of_le hlen]
    simp [log,readEventOld,scanf,skipSpace,scanInt]
  | some r =>
    obtain ⟨hlt,-⟩ := List.getElem?_eq_some_iff.mp hr
    have hdrop : log (rs.drop s.events.length) = r.text ++ log (rs.drop (s.events.length + 1)) := by
      rw [drop_eq_getElem_cons hlt]
      simp_all [log]
    rw [boundary_succ hr,← h.pos,Reader.sees_eq h.pos c.now,hdrop]
    by_cases hdue : s.pos + r.text.length ≤ c.now
    · obtain ⟨e,he,hread⟩ := hlegible.get hr
      rw [if_pos ⟨hlt,hdue⟩,he,Nat.add_sub_cancel_left,take_append,
        take_of_length_le (by omega)]
      exact readEventOld_whole hstops hread _ _
    · rw [if_neg fun hc => hdue hc.2,take_append_of_le_length (by omega)]
      have hat : recordAt rs s.pos = some r := by
        rw [h.pos,recordAt_boundary,hr]
      by_cases hnow : s.pos < c.now
      · obtain ⟨hparses,hsync⟩ := hc r hat hnow (by omega)
        rw [Reader.sees_eq h.pos c.now,hdrop,take_append_of_le_length (by omega)] at hparses
        exact readEventOld_part (by omega) hparses hsync
      · rw [Nat.sub_eq_zero_of_le (by omega)]
        rfl

theorem Polled.poll (hstops : StopsAtDelimiter readEvent) (hlegible : Legible readEvent rs es)
    {s s' : Reader ε} (h : Polled rs es s) {c : Reveal} (hc : Undisturbed readEvent rs s c)
    (hs : poll readEvent rs s c = some s') : Polled rs es s' := by
  rw [UserLog.poll,h.answer hstops hlegible hc,dueAnswer] at hs
  split at hs
  · dsimp only at hs
    split at hs
    · next hdue =>
      obtain rfl := some.inj hs
      obtain ⟨e,he,-⟩ := hlegible.get (getElem?_eq_getElem hdue.1)
      have hlen : (s.events ++ [e]).length = s.events.length + 1 := by
        rw [length_append,length_singleton]
      have hle : boundary rs s.events.length ≤ boundary rs (s.events.length + 1) := by
        rw [boundary_succ (getElem?_eq_getElem hdue.1)]
        exact Nat.le_add_right _ _
      rw [he,toList_some]
      constructor
      · show s.pos + (boundary rs (s.events.length + 1) - boundary rs s.events.length) = _
        rw [hlen,h.pos]
        omega
      · rw [hlen]
        exact hdue.1
      · show s.events ++ [e] = es.take (s.events ++ [e]).length
        rw [hlen,take_add_one,he,← h.events]
        rfl
      · intro o ho
        rcases List.mem_append.mp ho with ho | ho
        · exact h.outcomes o ho
        · exact .inl (List.mem_singleton.mp ho)
      · rw [hlen,count_append,h.count]
        rfl
    · obtain rfl := some.inj hs
      rw [toList_none,append_nil]
      refine ⟨h.pos,h.le,h.events,?_,?_⟩
      · intro o ho
        rcases List.mem_append.mp ho with ho | ho
        · exact h.outcomes o ho
        · exact .inr (List.mem_singleton.mp ho)
      · rw [count_append,h.count]
        rfl
  · cases hs

/-- Polling a growing log returns every record once and in order, as soon as it is complete, and
stays at the record while it is not. -/
theorem polling_loses_nothing (hstops : StopsAtDelimiter readEvent)
    (hlegible : Legible readEvent rs es) {cs : List Reveal} {s : Reader ε}
    (hok : Along (poll readEvent rs) (Undisturbed readEvent rs) Reader.start cs)
    (hr : run (poll readEvent rs) Reader.start cs = some s) :
    Polled rs es s ∧ ∀ c, Grows rs s c → Undisturbed readEvent rs s c →
      answer readEvent rs s c = dueAnswer rs es s.events.length c.now := by
  have h : Polled rs es s := run_invariant
    (fun _ _ _ hs hc hstep => hs.poll hstops hlegible hc hstep) hok polled_start hr
  exact ⟨h,fun c _ hc => h.answer hstops hlegible hc⟩

end

private theorem stopsAtDelimiter_readGenericEvent : StopsAtDelimiter readGenericEvent := by
  intro n x e k t t' _ _ h hread
  obtain rfl : (readGenericEvent n (x ++ synchDelimiter ++ t)).2 = k := congrArg Prod.snd hread
  rw [← hread]
  have hne : ∀ t : List Byte, x ++ synchDelimiter ++ t ≠ [] := by
    intro t
    simp [synchDelimiter]
  have h4 : synchDelimiter.length = 4 := rfl
  have hinfo : ∀ t : List Byte, (x ++ synchDelimiter ++ t).takeWhile (· ≠ newline) =
      if (x.takeWhile (· ≠ newline)).length = x.length then x ++ [46,46,46]
      else x.takeWhile (· ≠ newline) := by
    intro t
    rw [append_assoc,List.takeWhile_append]
    rfl
  rw [readGenericEvent,hinfo,if_neg (hne _)] at h ⊢
  rw [readGenericEvent,hinfo,if_neg (hne _)]
  by_cases hx : (x.takeWhile (· ≠ newline)).length = x.length
  · -- the delimiter itself would be taken
    rw [if_pos hx,if_neg (by simp)] at h
    have hdrop : (x ++ synchDelimiter ++ t).drop (x ++ [46,46,46]).length = 10 :: t := by
      have hcut : x ++ synchDelimiter ++ t = (x ++ [46,46,46]) ++ 10 :: t := by
        rw [append_assoc,append_assoc]
        rfl
      rw [hcut]
      exact drop_left
    have hskip : (skipSpace (10 :: t)).length ≤ (10 :: t).length :=
      (dropWhile_suffix _).length_le
    rw [hdrop] at h
    simp only [length_append,length_cons,h4] at h hskip
    omega
  · rw [if_neg hx]
    have hle : (x.takeWhile (· ≠ newline)).length ≤ x.length :=
      (List.takeWhile_prefix _).length_le
    have hskip : ∀ t : List Byte, (x ++ synchDelimiter ++ t).length -
        (skipSpace ((x ++ synchDelimiter ++ t).drop (x.takeWhile (· ≠ newline)).length)).length =
          x.length - (skipSpace (x.drop (x.takeWhile (· ≠ newline)).length)).length := by
      intro t
      have hspace : ∀ y : List Byte, skipSpace (y ++ (synchDelimiter ++ t)) =
          skipSpace y ++ (synchDelimiter ++ t) := fun y =>
        dropWhile_append ends_dot.space y (46 :: 46 :: 10 :: t)
      rw [append_assoc,drop_append_of_le_length hle,hspace]
      simp only [length_append]
      omega
    rw [hskip,hskip]

def sampleHeader : Header := ⟨1,0,0,0,2,3,4,5⟩

def sampleRecord : Record := ⟨8,sampleHeader,[104,105,10],rfl,rfl⟩

def sampleEvent : Event (List Byte) := ⟨8,sampleHeader,[104,105]⟩

private theorem legible_sample :
    Legible readGenericEvent [sampleRecord,sampleRecord] [sampleEvent,sampleEvent] :=
  ⟨by decide,by decide,trivial⟩

/-- The number, the header and the second record are cut at some call each. -/
theorem polling_loses_nothing_sample : ∃ s, run (poll readGenericEvent [sampleRecord,sampleRecord])
    Reader.start [⟨2,10⟩,⟨30,31⟩,⟨50,52⟩,⟨52,55⟩,⟨80,80⟩] = some s ∧ s.events =
    [sampleEvent,sampleEvent] ∧
    Polled [sampleRecord,sampleRecord] [sampleEvent,sampleEvent] s := by
  have hok : Along (poll readGenericEvent [sampleRecord,sampleRecord])
      (Undisturbed readGenericEvent [sampleRecord,sampleRecord]) Reader.start
      [⟨2,10⟩,⟨30,31⟩,⟨50,52⟩,⟨52,55⟩,⟨80,80⟩] := by decide
  exact ⟨_,rfl,by decide,
    (polling_loses_nothing stopsAtDelimiter_readGenericEvent legible_sample hok rfl).1⟩

/-- A call that finds all but the end of a record skips it, and one completed during the wait is
answered with an error. -/
theorem polling_fails_when_disturbed :
    Legible readGenericEvent [sampleRecord] [sampleEvent] ∧
      (∃ s, run (poll readGenericEvent [sampleRecord]) Reader.start [⟨39,39⟩,⟨40,40⟩] = some s ∧
        s.outcomes = [.noEvent,.noEvent] ∧ s.pos = 40 ∧ s.events = []) ∧
      ∃ s, run (poll readGenericEvent [sampleRecord]) Reader.start [⟨10,40⟩] = some s ∧
        s.outcomes = [.rdError] := by
  refine ⟨⟨by decide,trivial⟩,⟨_,rfl,?_⟩,_,rfl,?_⟩
  · decide
  · decide

end Condor.UserLog
