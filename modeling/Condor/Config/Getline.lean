import Mathlib.Data.List.DropRight
import Condor.Utils.CString

/-!
# Reading one line of a configuration file

A line arrives in the pieces that fit the buffer, which grows when it is full. Memory is taken to
suffice.
-/

namespace Condor.Config

open List Option

def backslash : Byte := 92

structure LineReader where
  rest : List Byte
  eof : Bool := false
  buflen : Nat := 0
  configLineNo : Nat := 0

/-- `fgets(end_ptr, len, fp)`, which notices the end of the file only when it needs more bytes. -/
def LineReader.fgets (r : LineReader) (len : Nat) : Option (List Byte) × LineReader :=
  let (got,rest) := Condor.fgets (len - 1) r.rest
  let r := { r with
    rest := rest
    eof := r.eof || (got.length < len - 1 && got.getLast? ≠ some newline) }
  (if got = [] then none else some got,r)

def trim (line : List Byte) : List Byte := (line.rdropWhile isspace).dropWhile isspace

/-- The loop of getline_implementation, with the text before `line_ptr` and the text from there to
`end_ptr`. -/
def getlineLoop : Nat → LineReader → List Byte → List Byte → Option
    (Option (List Byte) × LineReader)
  | 0, _, _, _ => none
  | n+1, r, done, line =>
    let len := r.buflen - (done ++ line).length
    let (len,r) :=
      if len ≤ 5 then (len + 4096,{ r with buflen := r.buflen + 4096 }) else (len,r)
    match r.fgets len with
    | (none,r) => some (if done ++ line = [] then none else some (done ++ line),r)
    | (some got,r) =>
      -- strlen stops at the first NUL
      let got := got.takeWhile (· ≠ 0)
      if got = [] then getlineLoop n r done line
      else if got.getLast? ≠ some newline then getlineLoop n r done (line ++ got)
      else
        let r := { r with configLineNo := r.configLineNo + 1 }
        let text := done ++ trim (line ++ got)
        if text.getLast? = some backslash then getlineLoop n r text.dropLast []
        else some (some text,r)

/-- `getline_implementation`: the line, or `none` for NULL. -/
def getlineImplementation (r : LineReader) (requestedBufsize : Nat) :
    Option (Option (List Byte) × LineReader) :=
  if r.eof then some (none,{ r with buflen := 0 })
  else
    let r := if r.buflen < requestedBufsize then { r with buflen := requestedBufsize } else r
    getlineLoop (r.rest.length + 1) r [] []

/-- Calls until one returns NULL, at most `n` of them. -/
def readLines (requestedBufsize : Nat) : Nat → LineReader → Option (List (List Byte))
  | 0, _ => none
  | n+1, r => do
    let (line,r) ← getlineImplementation r requestedBufsize
    match line with
    | none => some []
    | some line => (line :: ·) <$> readLines requestedBufsize n r

def splitLines : List Byte → List (List Byte) × List Byte
  | [] => ([],[])
  | b :: s =>
    let (ls,last) := splitLines s
    if b = newline then ([] :: ls,last)
    else match ls with
      | [] => ([],b :: last)
      | l :: ls => ((b :: l) :: ls,last)

private theorem splitLines_last {p : List Byte} (hp : newline ∉ p) : splitLines p = ([],p) := by
  induction p with
  | nil => rfl
  | cons b p ih =>
    simp only [mem_cons,not_or] at hp
    rw [splitLines,ih hp.2]
    simp [Ne.symm hp.1]

private theorem splitLines_line {p : List Byte} (hp : newline ∉ p) (s : List Byte) :
    splitLines (p ++ newline :: s) = (p :: (splitLines s).1,(splitLines s).2) := by
  induction p with
  | nil => simp [splitLines]
  | cons b p ih =>
    simp only [mem_cons,not_or] at hp
    rw [cons_append,splitLines,ih hp.2]
    simp [Ne.symm hp.1]

/-- The lines made of physical lines, behind the text of earlier ones; a backslash at the end of the
whole text joins it with the next line. -/
def joined (text : List Byte) : List (List Byte) → List Byte → List (List Byte)
  | [], last => if text ++ last = [] then [] else [text ++ last]
  | l :: ls, last =>
    if (text ++ trim l).getLast? = some backslash then joined (text ++ trim l).dropLast ls last
    else (text ++ trim l) :: joined [] ls last

theorem fgets_append (n : Nat) (s : List Byte) :
    (Condor.fgets n s).1 ++ (Condor.fgets n s).2 = s := by
  induction n generalizing s with
  | zero => rfl
  | succ n ih =>
    cases s with
    | nil => rfl
    | cons b s =>
      rw [Condor.fgets]
      split
      · rfl
      · simp [ih s]

theorem fgets_nil {n : Nat} {s : List Byte} (hn : 0 < n) (h : (Condor.fgets n s).1 = []) :
    s = [] := by
  obtain ⟨n,rfl⟩ := Nat.exists_eq_add_one.mpr hn
  cases s with
  | nil => rfl
  | cons b s =>
    rw [Condor.fgets] at h
    split at h <;> simp at h

private theorem fgets_newline (n : Nat) (s : List Byte) :
    newline ∉ (Condor.fgets n s).1 ∨
      ∃ p, newline ∉ p ∧ (Condor.fgets n s).1 = p ++ [newline] := by
  induction n generalizing s with
  | zero => exact .inl (by simp [Condor.fgets])
  | succ n ih =>
    cases s with
    | nil => exact .inl (by simp [Condor.fgets])
    | cons b s =>
      rw [Condor.fgets]
      split
      next hb => exact .inr ⟨[],by simp,by simp [hb]⟩
      next hb =>
        rcases ih s with h | ⟨p,hp,h⟩
        · exact .inl (by simp [Ne.symm hb,h])
        · exact .inr ⟨b :: p,by simp [Ne.symm hb,hp],by simp [h]⟩

private theorem fgets_short {n : Nat} {s : List Byte} (hlen : (Condor.fgets n s).1.length < n)
    (hlast : (Condor.fgets n s).1.getLast? ≠ some newline) : (Condor.fgets n s).2 = [] := by
  induction n generalizing s with
  | zero => exact absurd hlen (Nat.not_lt_zero _)
  | succ n ih =>
    cases s with
    | nil => rfl
    | cons b s =>
      rw [Condor.fgets] at hlen hlast ⊢
      split at hlast
      next hb => simp [hb] at hlast
      next hb =>
        rw [if_neg hb] at hlen ⊢
        apply ih
        · simpa using hlen
        · intro h
          apply hlast
          rw [getLast?_cons,h]
          rfl

/-- A reader whose file has no NUL, and which sees the end of the file only when nothing is left. -/
structure LineReader.Sound (r : LineReader) : Prop where
  eof : r.eof = true → r.rest = []
  nonzero : ∀ b ∈ r.rest, b ≠ 0

theorem LineReader.Sound.fgets {r r' : LineReader} {len : Nat} {got : Option (List Byte)}
    (hr : r.Sound) (hlen : 1 < len) (h : r.fgets len = (got,r')) :
    r'.Sound ∧ got.getD [] ++ r'.rest = r.rest ∧ (got = none → r.rest = []) ∧
      ∀ p, got = some p → p ≠ [] ∧ p.takeWhile (· ≠ 0) = p ∧
        (newline ∉ p ∨ ∃ q, newline ∉ q ∧ p = q ++ [newline]) := by
  have happ := fgets_append (len - 1) r.rest
  have hnl := fgets_newline (len - 1) r.rest
  have hnil := fgets_nil (n := len - 1) (s := r.rest) (by omega)
  have hshort := fgets_short (n := len - 1) (s := r.rest)
  simp only [LineReader.fgets,Prod.mk.injEq] at h
  obtain ⟨hgot,rfl⟩ := h
  refine ⟨⟨?_,?_⟩,?_,?_,?_⟩
  · intro he
    simp only [Bool.or_eq_true,Bool.and_eq_true,decide_eq_true_eq] at he
    rcases he with he | he
    · exact (List.append_eq_nil_iff.mp (happ.trans (hr.eof he))).2
    · exact hshort he.1 he.2
  · intro b hb
    apply hr.nonzero
    rw [← happ]
    exact mem_append_right _ hb
  · rw [← hgot]
    split
    next h => simpa [h] using happ
    next h => exact happ
  · intro hnone
    rw [hnone] at hgot
    split at hgot
    next h => exact hnil h
    next h => simp at hgot
  · intro p hp
    rw [hp] at hgot
    split at hgot
    next h => simp at hgot
    next h =>
      obtain rfl := some.inj hgot
      refine ⟨h,?_,hnl⟩
      apply List.takeWhile_eq_self_iff.mpr
      intro b hb
      have := hr.nonzero b (by rw [← happ]; exact mem_append_left _ hb)
      simpa using this

structure Returned (text : List Byte) (s : List Byte) (size : Nat) (result : Option (List Byte))
    (r' : LineReader) : Prop where
  sound : r'.Sound
  lines : joined text (splitLines s).1 (splitLines s).2 =
    match result with
    | none => []
    | some line => line :: joined [] (splitLines r'.rest).1 (splitLines r'.rest).2
  length : result.isSome → r'.rest.length < size

theorem Returned.mono {text s : List Byte} {size size' : Nat} {result : Option (List Byte)}
    {r' : LineReader} (h : Returned text s size result r') (hle : size ≤ size') :
    Returned text s size' result r' :=
  ⟨h.sound,h.lines,fun hsome => Nat.lt_of_lt_of_le (h.length hsome) hle⟩

theorem length_trim_le (l : List Byte) : (trim l).length ≤ l.length := by
  unfold trim
  have h := (dropWhile_sublist isspace (l := l.rdropWhile isspace)).length_le
  have h' := (List.rdropWhile_prefix isspace (l := l)).length_le
  omega

private theorem trim_newline (l : List Byte) : trim (l ++ [newline]) = trim l := by
  unfold trim
  rw [rdropWhile_concat_pos isspace l newline (by decide)]

private theorem getlineLoop_spec {n : Nat} {r : LineReader} {done line : List Byte} (hr : r.Sound)
    (hn : r.rest.length < n) (hline : newline ∉ line) :
    ∃ result r', getlineLoop n r done line = some (result,r') ∧
      Returned done (line ++ r.rest) ((done ++ line).length + r.rest.length) result r' := by
  induction n generalizing r done line with
  | zero => exact absurd hn (Nat.not_lt_zero _)
  | succ n ih =>
    obtain ⟨len,r1,hgrow,hlen,hrest,hr1⟩ : ∃ len r1,
        (if r.buflen - (done ++ line).length ≤ 5 then
          (r.buflen - (done ++ line).length + 4096,{ r with buflen := r.buflen + 4096 })
        else (r.buflen - (done ++ line).length,r)) = (len,r1) ∧ 1 < len ∧ r1.rest = r.rest ∧
          r1.Sound := by
      split
      next h => exact ⟨_,_,rfl,by omega,rfl,hr.1,hr.2⟩
      next h => exact ⟨_,_,rfl,by omega,rfl,hr⟩
    rw [getlineLoop]
    simp only [hgrow]
    rw [← hrest] at hn ⊢
    rcases hf : r1.fgets len with ⟨got,r2⟩
    obtain ⟨hr2,happ,hnone,hsome⟩ := hr1.fgets hlen hf
    cases got with
    | none =>
      have hend : r1.rest = [] := hnone rfl
      have hend2 : r2.rest = [] := by simpa [hend] using happ
      refine ⟨_,_,rfl,hr2,?_,?_⟩
      · simp only [hend,hend2,append_nil,splitLines_last hline,joined]
        split <;> simp [splitLines,joined]
      · simp only [hend,hend2]
        split
        next h => simp
        next h =>
          intro
          have := List.length_pos_iff.mpr h
          simp only [length_nil]
          omega
    | some got =>
      obtain ⟨hne,htake,hnl⟩ := hsome got rfl
      simp only [getD_some] at happ
      have hpos : 0 < got.length := List.length_pos_iff.mpr hne
      have hlength : got.length + r2.rest.length = r1.rest.length := by
        rw [← happ,length_append]
      simp only [htake,if_neg hne]
      rcases hnl with hnl | ⟨q,hq,rfl⟩
      · -- the line goes on behind the piece
        have hlast : got.getLast? ≠ some newline := by
          intro h
          exact hnl (mem_of_getLast? h)
        rw [if_pos hlast]
        obtain ⟨result,r',hloop,hret⟩ := @ih r2 done (line ++ got) hr2 (by omega)
          (by simp [hline,hnl])
        rw [← happ,← append_assoc]
        refine ⟨result,r',hloop,hret.mono ?_⟩
        simp only [length_append]
        omega
      · have hsplit : splitLines (line ++ r1.rest) =
            ((line ++ q) :: (splitLines r2.rest).1,(splitLines r2.rest).2) := by
          rw [← happ,← splitLines_line (by simp [hline,hq])]
          simp
        have htrim : trim (line ++ (q ++ [newline])) = trim (line ++ q) := by
          rw [← append_assoc,trim_newline]
        have hshort := length_trim_le (line ++ q)
        have hlast : (q ++ [newline]).getLast? = some newline := by simp
        simp only [hlast,ne_eq,not_true_eq_false,if_false,htrim]
        simp only [length_append,length_singleton] at hlength hshort
        split
        next h =>
          obtain ⟨result,r',hloop,hret⟩ := @ih { r2 with configLineNo := r2.configLineNo + 1 }
            (done ++ trim (line ++ q)).dropLast [] ⟨hr2.1,hr2.2⟩ (by simp only; omega) (by simp)
          refine ⟨result,r',hloop,hret.sound,?_,?_⟩
          · rw [hsplit]
            simp only [joined,if_pos h]
            exact hret.lines
          · intro hres
            have := hret.length hres
            simp only [append_nil,length_dropLast,length_append] at this ⊢
            omega
        next h =>
          refine ⟨_,_,rfl,⟨hr2.1,hr2.2⟩,?_,?_⟩
          · rw [hsplit]
            simp only [joined,if_neg h]
          · intro
            simp only [length_append]
            omega

private theorem getlineImplementation_spec {r : LineReader} (hr : r.Sound) (size : Nat) :
    ∃ result r', getlineImplementation r size = some (result,r') ∧
      Returned [] r.rest r.rest.length result r' := by
  unfold getlineImplementation
  split
  next he =>
    have hrest := hr.eof he
    exact ⟨none,_,rfl,⟨fun _ => hrest,hr.2⟩,by simp [hrest,splitLines,joined],by simp⟩
  next he =>
    simp only
    split
    · simpa using @getlineLoop_spec _ { r with buflen := size } [] [] ⟨hr.1,hr.2⟩
        (Nat.lt_succ_self _)
        (by simp)
    · simpa using @getlineLoop_spec _ r [] [] hr (Nat.lt_succ_self _) (by simp)

theorem readLines_eq {n : Nat} {r : LineReader} (hr : r.Sound) (hn : r.rest.length < n)
    (size : Nat) :
    readLines size n r = some (joined [] (splitLines r.rest).1 (splitLines r.rest).2) := by
  induction n generalizing r with
  | zero => exact absurd hn (Nat.not_lt_zero _)
  | succ n ih =>
    obtain ⟨result,r',hcall,hret⟩ := getlineImplementation_spec hr size
    rw [readLines,hcall,hret.lines]
    cases result with
    | none => rfl
    | some line =>
      have hlen := hret.length rfl
      simp only [bind_eq_bind,bind_some,ih hret.sound (by omega)]
      rfl

end Condor.Config
