import Condor.Utils.UrlParams

/-!
# Sinful addresses

An address is written `<host:port?params>`. `split_sin` keeps the lengths of the parts in an `int`;
a negative one, and an escape that does not fit its buffer, have no result.
-/

namespace Condor

open Lib Url List Option

namespace Sinful

def openAngle : Byte := 60

def closeAngle : Byte := 62

def openBracket : Byte := 91

def closeBracket : Byte := 93

def colon : Byte := 58

def questionMark : Byte := 63

/-- The length of a part, as an `int`, with which it is copied. -/
def intLength (n : Nat) : Option Nat := if 0 ≤ toInt n then some (toInt n).toNat else none

/-- The host and what follows it; inside, none for a bracket without its match. -/
def splitHost (addr : List Byte) : Option (Option (List Byte × List Byte)) :=
  if addr.head? = some openBracket then
    let addr := addr.tail
    if closeBracket ∈ addr then
      let host := addr.takeWhile (· ≠ closeBracket)
      some (some (host,addr.drop (host.length + 1)))
    else some none
  else
    (intLength (strcspn addr [colon,questionMark,closeAngle])).map fun len =>
      some (addr.take len,addr.drop len)

def splitPort (addr : List Byte) : Option (Option (List Byte) × List Byte) :=
  if addr.head? = some colon then
    let addr := addr.tail
    (intLength (addr.takeWhile isdigit).length).map fun len => (some (addr.take len),addr.drop len)
  else some (none,addr)

def splitParams (addr : List Byte) : Option (Option (List Byte) × List Byte) :=
  if addr.head? = some questionMark then
    let addr := addr.tail
    (intLength (strcspn addr [closeAngle])).map fun len => (some (addr.take len),addr.drop len)
  else some (none,addr)

structure Parts where
  host : List Byte
  port : Option (List Byte)
  params : Option (List Byte)

def splitSin (addr : List Byte) : Option (Option Parts) :=
  if addr.head? = some openAngle then
    (splitHost addr.tail).bind fun
      | none => some none
      | some (host,addr) =>
        (splitPort addr).bind fun (port,addr) =>
          (splitParams addr).map fun (params,addr) =>
            if addr = [closeAngle] then some ⟨host,port,params⟩ else none
  else some none

end Sinful

structure Sinful where
  sinful : List Byte := []
  host : List Byte := []
  port : List Byte := []
  params : Params := .empty
  valid : Bool := true

namespace Sinful

def ofBracketed (sinful : List Byte) : Option Sinful :=
  (splitSin sinful).map fun
    | none => { sinful, valid := false }
    | some parts =>
      let parsed : Bool × Params :=
        match parts.params with
        | none => (true,.empty)
        | some params => parseUrlEncodedParams params .empty
      { sinful, host := parts.host, port := parts.port.getD [], params := parsed.2,
        valid := parsed.1 }

def lacksBrackets (sinful : List Byte) : Bool :=
  match sinful.dropWhile (· ≠ colon) with
  | [] => false
  | _ :: rest => colon ∈ rest

def ofString : Option (List Byte) → Option Sinful
  | none => some {}
  | some sinful =>
    if sinful.head? = some openAngle then ofBracketed sinful
    else if sinful.head? ≠ some openBracket ∧ lacksBrackets sinful then
      some { sinful := [openAngle], valid := false }
    else ofBracketed (openAngle :: (sinful ++ [closeAngle]))

def getSinful (s : Sinful) : Option (List Byte) :=
  if s.sinful = [] then none else some (s.sinful.takeWhile (· ≠ 0))

def regenerateSinful (s : Sinful) : Option Sinful :=
  let host :=
    if colon ∈ s.host then openBracket :: (s.host ++ [closeBracket]) else s.host
  let port := if s.port = [] then [] else colon :: s.port
  let params :=
    if s.params.entries = [] then some []
    else (urlEncodeParams s.params).map (questionMark :: ·)
  params.map fun params =>
    { s with sinful := openAngle :: (host ++ (port ++ (params ++ [closeAngle]))) }

def setHost (s : Sinful) (host : CString) : Option Sinful :=
  regenerateSinful { s with host := bytes host }

def setPort (s : Sinful) (port : Int) : Option Sinful :=
  regenerateSinful { s with port := bytes (decimalInt port) }

def setParam (s : Sinful) (key : CString) (value : Option CString) : Option Sinful :=
  match value with
  | none => regenerateSinful { s with params := s.params.erase (.ofC key) }
  | some value => regenerateSinful { s with params := s.params.insert (.ofC key) (.ofC value) }

inductive Call where
  | setHost (host : CString)
  | setPort (port : Int)
  | setParam (key : CString) (value : Option CString)

def call (s : Sinful) : Call → Option Sinful
  | .setHost host => s.setHost host
  | .setPort port => s.setPort port
  | .setParam key value => s.setParam key value

def calls : Sinful → List Call → Option Sinful
  | s, [] => some s
  | s, c :: cs => (s.call c).bind fun s' => s'.calls cs

def behindBracket (addr : List Byte) : List Byte :=
  if addr.head? = some openBracket then (addr.dropWhile (· ≠ closeBracket)).tail else addr

/-- What stands behind the `>` that closes an address. -/
def behindClosing (text : List Byte) : List Byte :=
  let addr := if text.head? = some openAngle then text.tail else text
  ((behindBracket addr).dropWhile (· ≠ closeAngle)).tail

theorem intLength_le {n k : Nat} (h : intLength n = some k) : k ≤ n := by
  rw [intLength] at h
  split at h
  · next hpos =>
    rw [some.injEq] at h
    have hbmod : toInt n ≤ n := by
      have hrange := Int.bmod_lt (x := n) (m := 2^32) (by decide)
      by_cases hsmall : n < 2^31
      · rw [toInt,Int.bmod_eq_of_le (by omega) (by omega)]
      · rw [toInt]
        omega
    omega
  · cases h

theorem intLength_small {n : Nat} (h : n < 2^31) : intLength n = some n := by
  have heq : toInt n = n := Int.bmod_eq_of_le (by omega) (by omega)
  rw [intLength,heq,if_pos (Int.natCast_nonneg n),Int.toNat_natCast]

theorem intLength_large {n k : Nat} (hn : ¬n < 2^31) (h : intLength n = some k) : k < n := by
  rw [intLength] at h
  split at h
  · rw [some.injEq] at h
    have hrange := Int.bmod_lt (x := n) (m := 2^32) (by decide)
    rw [← toInt] at hrange
    omega
  · cases h

theorem not_stop_of_mem_take {s stop : List Byte} {len : Nat} (h : len ≤ strcspn s stop)
    {b : Byte}
    (hb : b ∈ s.take len) : b ∉ stop := by
  have htake : s.take len = (s.takeWhile fun b => b ∉ stop).take len := by
    conv_lhs => rw [← takeWhile_append_dropWhile (p := fun b => decide (b ∉ stop)) (l := s)]
    exact take_append_of_le_length h
  rw [htake] at hb
  have hmem := mem_of_mem_take hb
  have hnot := mem_takeWhile_imp hmem
  exact of_decide_eq_true hnot

private theorem drop_takeWhile (p : Byte → Bool) (s : List Byte) :
    s.drop (s.takeWhile p).length = s.dropWhile p := by
  have h := @drop_left _ (s.takeWhile p) (s.dropWhile p)
  rwa [takeWhile_append_dropWhile] at h

private theorem splitHost_behind {addr host more : List Byte}
    (h : splitHost addr = some (some (host,more))) :
    ∃ pre, behindBracket addr = pre ++ more ∧ closeAngle ∉ pre := by
  rw [splitHost] at h
  rw [behindBracket]
  split at h
  · next hopen =>
    rw [if_pos hopen]
    dsimp only at h
    split at h
    · rw [some.injEq,some.injEq,Prod.mk.injEq] at h
      refine ⟨[],?_,not_mem_nil⟩
      cases addr with
      | nil => cases hopen
      | cons b a =>
        rw [head?_cons,some.injEq] at hopen
        rw [tail_cons] at h
        rw [nil_append,← h.2,hopen,dropWhile_cons_of_pos (by decide),
          ← drop_drop,drop_takeWhile,drop_one]
    · exact absurd (some.inj h) (some_ne_none _).symm
  · next hopen =>
    rw [if_neg hopen]
    obtain ⟨len,hlen,hsplit⟩ := Option.map_eq_some_iff.mp h
    rw [some.injEq,Prod.mk.injEq] at hsplit
    refine ⟨addr.take len,?_,?_⟩
    · rw [← hsplit.2,take_append_drop]
    · intro hm
      exact not_stop_of_mem_take (intLength_le hlen) hm (by decide)

private theorem splitPort_behind {addr more : List Byte} {port : Option (List Byte)}
    (h : splitPort addr = some (port,more)) : ∃ pre, addr = pre ++ more ∧ closeAngle ∉ pre := by
  rw [splitPort] at h
  split at h
  · next hcolon =>
    obtain ⟨len,hlen,hsplit⟩ := Option.map_eq_some_iff.mp h
    rw [Prod.mk.injEq] at hsplit
    cases addr with
    | nil => cases hcolon
    | cons b a =>
      rw [head?_cons,some.injEq] at hcolon
      refine ⟨b :: a.take len,?_,?_⟩
      · rw [← hsplit.2,tail_cons,cons_append,take_append_drop]
      · intro hm
        cases List.mem_cons.mp hm with
        | inl he => exact absurd (he.trans hcolon) (by decide)
        | inr hm =>
          have htake : a.take len = (a.takeWhile isdigit).take len := by
            conv_lhs => rw [← takeWhile_append_dropWhile (p := isdigit) (l := a)]
            exact take_append_of_le_length (intLength_le hlen)
          rw [htake] at hm
          have hdigit := mem_takeWhile_imp (mem_of_mem_take hm)
          exact absurd hdigit (by decide)
  · rw [some.injEq,Prod.mk.injEq] at h
    exact ⟨[],h.2,not_mem_nil⟩

private theorem splitParams_behind {addr more : List Byte} {params : Option (List Byte)}
    (h : splitParams addr = some (params,more)) :
    ∃ pre, addr = pre ++ more ∧ closeAngle ∉ pre := by
  rw [splitParams] at h
  split at h
  · next hquestion =>
    obtain ⟨len,hlen,hsplit⟩ := Option.map_eq_some_iff.mp h
    rw [Prod.mk.injEq] at hsplit
    cases addr with
    | nil => cases hquestion
    | cons b a =>
      rw [head?_cons,some.injEq] at hquestion
      refine ⟨b :: a.take len,?_,?_⟩
      · rw [← hsplit.2,tail_cons,cons_append,take_append_drop]
      · intro hm
        cases List.mem_cons.mp hm with
        | inl he => exact absurd (he.trans hquestion) (by decide)
        | inr hm =>
          exact not_stop_of_mem_take (intLength_le hlen) hm (mem_singleton_self _)
  · rw [some.injEq,Prod.mk.injEq] at h
    exact ⟨[],h.2,not_mem_nil⟩

variable {text : List Byte}

theorem splitSin_iff {parts : Parts} :
    splitSin text = some (some parts) ↔ text.head? = some openAngle ∧ ∃ more more',
      splitHost text.tail = some (some (parts.host,more)) ∧
      splitPort more = some (parts.port,more') ∧
      splitParams more' = some (parts.params,[closeAngle]) := by
  rw [splitSin]
  constructor
  · intro h
    split at h
    · next hopen =>
      obtain ⟨r,hr,h⟩ := Option.bind_eq_some_iff.mp h
      cases r with
      | none => exact absurd (some.inj h) (some_ne_none _).symm
      | some r =>
        obtain ⟨⟨port,more'⟩,hport,h⟩ := Option.bind_eq_some_iff.mp h
        obtain ⟨⟨params,rest⟩,hparams,h⟩ := Option.map_eq_some_iff.mp h
        dsimp only at h
        split at h
        · next hend =>
          rw [← some.inj h]
          exact ⟨hopen,r.2,more',hr,hport,by rw [hparams,hend]⟩
        · cases h
    · exact absurd (some.inj h) (some_ne_none _).symm
  · intro h
    obtain ⟨hopen,more,more',hhost,hport,hparams⟩ := h
    rw [if_pos hopen,hhost,bind_some]
    dsimp only
    rw [hport,bind_some]
    dsimp only
    rw [hparams,map_some]
    dsimp only
    rw [if_pos rfl]

private theorem splitSin_closed {parts : Parts} (h : splitSin text = some (some parts)) :
    ∃ pre, behindBracket text.tail = pre ++ [closeAngle] ∧ closeAngle ∉ pre := by
  obtain ⟨-,more,more',hhost,hport,hparams⟩ := splitSin_iff.mp h
  obtain ⟨pre,hpre,hnot⟩ := splitHost_behind hhost
  obtain ⟨pre1,hpre1,hnot1⟩ := splitPort_behind hport
  obtain ⟨pre2,hpre2,hnot2⟩ := splitParams_behind hparams
  refine ⟨pre ++ (pre1 ++ pre2),?_,?_⟩
  · rw [hpre,hpre1,hpre2,append_assoc,append_assoc]
  · rw [mem_append,mem_append]
    exact not_or.mpr ⟨hnot,not_or.mpr ⟨hnot1,hnot2⟩⟩

theorem ofBracketed_valid {t : Sinful} (h : ofBracketed text = some t) (hv : t.valid = true) :
    ∃ parts, splitSin text = some (some parts) ∧ parts.host = t.host := by
  obtain ⟨r,hr,ht⟩ := Option.map_eq_some_iff.mp h
  cases r with
  | none =>
    rw [← ht] at hv
    exact absurd hv Bool.false_ne_true
  | some parts =>
    rw [← ht]
    exact ⟨parts,hr,rfl⟩

private theorem dropWhile_closed {pre : List Byte} (h : closeAngle ∉ pre) (more : List Byte) :
    (pre ++ more).dropWhile (· ≠ closeAngle) = more.dropWhile (· ≠ closeAngle) := by
  apply dropWhile_append_of_pos
  intro b hb
  exact decide_eq_true fun he => h (he ▸ hb)

theorem behindBracket_append (h : ¬(text.head? = some openBracket ∧ closeBracket ∉ text)) :
    behindBracket (text ++ [closeAngle]) = behindBracket text ++ [closeAngle] := by
  cases text with
  | nil => rfl
  | cons b a =>
    rw [behindBracket,behindBracket,cons_append,head?_cons,head?_cons]
    split
    · next hopen =>
      have hclose : closeBracket ∈ b :: a := by
        by_contra hnot
        exact h ⟨hopen,hnot⟩
      rw [← cons_append]
      obtain ⟨u,v,huv,hu⟩ := eq_append_cons_of_mem hclose
      have hskip : ∀ c ∈ u, decide (c ≠ closeBracket) = true := by
        intro c hc
        exact decide_eq_true fun he => hu (he ▸ hc)
      rw [huv,append_assoc,dropWhile_append_of_pos hskip,
        dropWhile_append_of_pos hskip,cons_append,dropWhile_cons_of_neg (by simp),
        dropWhile_cons_of_neg (by simp),tail_cons,tail_cons]
    · rfl

theorem behindClosing_of_valid {t : Sinful}
    (h : ofString (some text) = some t) (hv : t.valid = true) : behindClosing text = [] := by
  rw [ofString] at h
  rw [behindClosing]
  split at h
  · next hopen =>
    obtain ⟨parts,hparts,-⟩ := ofBracketed_valid h hv
    obtain ⟨pre,hpre,hnot⟩ := splitSin_closed hparts
    rw [if_pos hopen,hpre,dropWhile_closed hnot]
    rfl
  · next hopen =>
    rw [if_neg hopen]
    split at h
    · rw [← some.inj h] at hv
      exact absurd hv Bool.false_ne_true
    · obtain ⟨parts,hparts,-⟩ := ofBracketed_valid h hv
      obtain ⟨pre,hpre,hnot⟩ := splitSin_closed hparts
      rw [tail_cons] at hpre
      by_cases hopen' : text.head? = some openBracket ∧ closeBracket ∉ text
      · have hnone : text.dropWhile (· ≠ closeBracket) = [] := by
          apply List.dropWhile_eq_nil_iff.mpr
          intro b hb
          exact decide_eq_true fun he => hopen'.2 (he ▸ hb)
        rw [behindBracket,if_pos hopen'.1,hnone]
        rfl
      · rw [behindBracket_append hopen'] at hpre
        have h := dropWhile_closed hnot []
        rw [append_nil] at h
        rw [append_cancel_right hpre,h]
        rfl

end Sinful

end Condor
