import Mathlib.Data.List.Basic

/-!
# Sources of characters

A source hands out its text one character after the other, `none` standing for the -1 at the end,
and takes back the character read last.
-/

namespace Condor.ClassAds

open scoped List

inductive SourceKind
  | string | chars | file
  deriving DecidableEq

structure LexerSource where
  kind : SourceKind
  before : List Char
  after : List Char
  /-- `_previous_character`. -/
  previous : Option Char := none

namespace LexerSource

/-- `SetNewSource` with offset 0. -/
def ofText (kind : SourceKind) (text : List Char) : LexerSource :=
  { kind := kind, before := [], after := text }

/-- The characters that `ReadCharacter` takes for the end of the text. -/
def endsAt (s : LexerSource) (c : Char) : Bool :=
  match s.kind with
  | .file => false
  | _ => c == '\x00'

/-- The character that `ReadCharacter` returns. -/
def next (s : LexerSource) : Option Char :=
  match s.after with
  | [] => none
  | c :: _ => if s.endsAt c then none else some c

def readCharacter (s : LexerSource) : LexerSource :=
  match s.next with
  | none => { s with previous := none }
  | some c => { s with before := c :: s.before, after := s.after.tail, previous := some c }

/-- A file takes the last character back with `ungetc`, which does nothing for -1; the other sources
always lower their offset. -/
def unreadCharacter (s : LexerSource) : LexerSource :=
  match s.kind with
  | .file =>
    match s.previous with
    | none => s
    | some c => { s with before := s.before.tail, after := c :: s.after }
  | _ =>
    match s.before with
    | [] => s
    | c :: cs => { s with before := cs, after := c :: s.after }

def rest (s : LexerSource) : List Char := s.after.takeWhile fun c => !s.endsAt c

variable {s : LexerSource}

theorem rest_of_next {c : Char} (h : s.next = some c) :
    s.rest = c :: s.readCharacter.rest := by
  have hread : s.readCharacter.rest = s.after.tail.takeWhile fun c => !s.endsAt c := by
    simp only [readCharacter,h]
    rfl
  rw [hread]
  cases ha : s.after with
  | nil => simp [next,ha] at h
  | cons x xs =>
    simp only [next,ha] at h
    split at h
    · simp at h
    · rename_i hx
      obtain rfl := Option.some.inj h
      simp [rest,ha,hx]

theorem rest_of_end (h : s.next = none) : s.rest = [] := by
  cases ha : s.after with
  | nil => simp [rest,ha]
  | cons x xs =>
    simp only [next,ha] at h
    split at h
    · rename_i hx
      simp [rest,ha,hx]
    · simp at h

theorem next_eq (s : LexerSource) : s.next = s.rest.head? := by
  cases h : s.next with
  | none => rw [rest_of_end h]; rfl
  | some c => rw [rest_of_next h]; rfl

theorem readCharacter_of_end (h : s.next = none) :
    s.readCharacter = { s with previous := none } := by
  simp [readCharacter,h]

@[simp] theorem rest_previous (s : LexerSource) (p : Option Char) :
    ({ s with previous := p } : LexerSource).rest = s.rest := rfl

theorem rest_readCharacter (s : LexerSource) : s.readCharacter.rest = s.rest.tail := by
  cases h : s.next with
  | none => rw [readCharacter_of_end h,rest_previous,rest_of_end h]; rfl
  | some c => rw [rest_of_next h]; rfl

theorem rest_unread_of_next {c : Char} (h : s.next = some c) :
    s.readCharacter.unreadCharacter.rest = s.rest := by
  have hafter : s.readCharacter.unreadCharacter.after = c :: s.after.tail := by
    cases hk : s.kind <;> simp [readCharacter,unreadCharacter,h,hk]
  have hkind : s.readCharacter.unreadCharacter.kind = s.kind := by
    cases hk : s.kind <;> simp [readCharacter,unreadCharacter,h,hk]
  have hsame : c :: s.after.tail = s.after := by
    cases ha : s.after with
    | nil => simp [next,ha] at h
    | cons x xs =>
      simp only [next,ha] at h
      split at h
      · simp at h
      · rw [Option.some.inj h]; rfl
  simp only [rest,endsAt,hafter,hkind,hsame]

theorem rest_lookahead (s : LexerSource) :
    (if s.next.isSome then s.readCharacter.unreadCharacter else s.readCharacter).rest =
      s.rest := by
  cases h : s.next with
  | none => simp [readCharacter_of_end h]
  | some c => simpa using rest_unread_of_next h

private theorem unreadCharacter_of_before {c : Char} {cs : List Char}
    (hk : s.kind ≠ .file) (h : s.before = c :: cs) :
    s.unreadCharacter = { s with before := cs, after := c :: s.after } := by
  unfold unreadCharacter
  cases hkind : s.kind with
  | file => exact absurd hkind hk
  | string | chars => simp [h]

theorem rest_unread_of_end {c : Char} (h : s.next = some c) (hend : s.readCharacter.next = none) :
    s.readCharacter.readCharacter.unreadCharacter.rest <+ [c] := by
  have hrest := rest_of_end hend
  rw [readCharacter_of_end hend]
  by_cases hk : s.kind = .file
  · have hsame : ({ s.readCharacter with previous := none } : LexerSource).unreadCharacter =
        { s.readCharacter with previous := none } := by
      simp [unreadCharacter,readCharacter,h,hk]
    rw [hsame,rest_previous,hrest]
    exact List.nil_sublist _
  · have hkind : s.readCharacter.kind = s.kind := by simp [readCharacter,h]
    have hbefore : s.readCharacter.before = c :: s.before := by simp [readCharacter,h]
    rw [unreadCharacter_of_before (s := { s.readCharacter with previous := none })
      (by simpa [hkind] using hk) hbefore]
    have htake : s.readCharacter.after.takeWhile (fun c => !s.readCharacter.endsAt c) = [] := hrest
    change List.takeWhile (fun c => !s.readCharacter.endsAt c) (c :: s.readCharacter.after) <+ [c]
    rw [List.takeWhile_cons,htake]
    split
    · exact List.Sublist.refl _
    · exact List.nil_sublist _

end LexerSource

end Condor.ClassAds
