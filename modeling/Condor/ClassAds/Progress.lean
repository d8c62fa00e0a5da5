import Condor.ClassAds.Lexer

/-!
# The lexer gets on

Every token but the end of the input shortens the text ahead, where `=` counts twice: behind `=!`
at the end of a string the lookahead puts the `!` back although nothing was read.
-/

namespace Condor.ClassAds

open List Option

inductive Mode
  | blank | slash | line | block | star | token
  deriving DecidableEq

def Mode.step : Mode → Char → Mode
  | .blank, c => if isspace c then .blank else if c = '/' then .slash else .token
  | .slash, c => if c = '/' then .line else if c = '*' then .block else .token
  | .line, c => if c = '\n' then .blank else if c = '\x00' then .token else .line
  | .block, c => if c = '*' then .star else .block
  | .star, c => if c = '/' then .blank else if c = '*' then .star else .block
  | .token, _ => .token

def Mode.isComment : Mode → Bool
  | .block | .star => true
  | _ => false

/-- Only white space and comments lie between the cursor and the end of the text, and the
last of them is a C comment without its end. -/
def openComment (text : List Char) : Bool := (text.foldl Mode.step .blank).isComment

example : openComment " // one\n /* two *".toList = true := by decide

example : openComment "/* one */ a /* two".toList = false := by decide

def Mode.inComment (c : Char) : Mode := if c = '*' then .star else .block

private theorem Mode.step_inComment {c d : Char} (h : c ≠ '*' ∨ d ≠ '/') :
    (inComment c).step d = inComment d := by
  unfold inComment
  by_cases hc : c = '*'
  · have hd : d ≠ '/' := h.resolve_left (not_not_intro hc)
    simp only [hc,if_true,step,hd,if_false]
  · simp only [hc,if_false,step]

private theorem Mode.isComment_inComment (c : Char) : (inComment c).isComment = true := by
  unfold inComment
  split <;> rfl

private theorem Mode.foldl_token (text : List Char) : text.foldl step .token = .token := by
  induction text with
  | nil => rfl
  | cons c cs ih => exact ih

/-- The text behind a C comment, `c` being the character read last. -/
def afterComment : Char → List Char → Option (List Char)
  | _, [] => none
  | c, d :: ds => if c = '*' ∧ d = '/' then some ds else afterComment d ds

private theorem afterComment_sublist : ∀ {c : Char} {text rest : List Char},
    afterComment c text = some rest → rest <+ text := by
  intro c text
  induction text generalizing c with
  | nil => intro rest h; simp [afterComment] at h
  | cons d ds ih =>
    intro rest h
    rw [afterComment] at h
    split at h
    · obtain rfl := some.inj h
      exact sublist_cons_self d ds
    · exact (ih h).trans (sublist_cons_self d ds)

private theorem Mode.foldl_inComment (c : Char) (text : List Char) :
    (text.foldl step (inComment c)).isComment =
      match afterComment c text with
      | none => true
      | some rest => openComment rest := by
  induction text generalizing c with
  | nil => exact isComment_inComment c
  | cons d ds ih =>
    rw [foldl_cons,afterComment]
    by_cases hend : c = '*' ∧ d = '/'
    · obtain ⟨rfl,rfl⟩ := hend
      rfl
    · rw [if_neg hend,step_inComment (not_and_or.mp hend)]
      exact ih d

private theorem Mode.foldl_line (text : List Char) :
    (text.foldl step .line).isComment =
      openComment (text.dropWhile fun c => c ≠ '\x00' && c ≠ '\n') := by
  induction text with
  | nil => rfl
  | cons c cs ih =>
    by_cases hn : c = '\n'
    · subst hn
      rfl
    by_cases h0 : c = '\x00'
    · subst h0
      have hdrop : List.dropWhile (fun c => decide (c ≠ '\x00') && decide (c ≠ '\n'))
          ('\x00' :: cs) = '\x00' :: cs := rfl
      rw [hdrop]
      change (cs.foldl step .token).isComment = (cs.foldl step .token).isComment
      rfl
    · have hdrop : List.dropWhile (fun c => decide (c ≠ '\x00') && decide (c ≠ '\n')) (c :: cs) =
          List.dropWhile (fun c => decide (c ≠ '\x00') && decide (c ≠ '\n')) cs := by
        simp [hn,h0]
      have hstep : Mode.line.step c = .line := by simp [step,hn,h0]
      rw [hdrop,foldl_cons,hstep]
      exact ih

/-- The length of a text in which `=` counts twice. -/
def weight (text : List Char) : Nat := text.length + text.count '='

theorem weight_mono {s t : List Char} (h : s <+ t) : weight s ≤ weight t :=
  Nat.add_le_add h.length_le (h.count_le '=')

variable {c : Char}

private theorem weight_lt {s t : List Char} (h : c :: s <+ t) : weight s < weight t := by
  have hlen := h.length_le
  have hcount := ((sublist_cons_self c s).trans h).count_le '='
  rw [length_cons] at hlen
  unfold weight
  omega

namespace Lexer

theorem ch_eq (l : Lexer) : l.ch = l.ahead.head? := by
  unfold ahead
  cases l.ch <;> rfl

variable {l : Lexer}

theorem ahead_of_ch (h : l.ch = some c) : l.ahead = c :: l.source.rest := by
  simp only [ahead,h]

theorem ahead_advance (l : Lexer) : l.advance.ahead = l.source.rest := by
  simp only [ahead,advance]
  cases h : l.source.next with
  | none => exact (LexerSource.rest_of_end h).symm
  | some c => exact (LexerSource.rest_of_next h).symm

@[simp] theorem ahead_wind (l : Lexer) : l.wind.ahead = l.ahead.tail := by
  cases h : l.ch with
  | none => simp only [wind,h,ahead]; rfl
  | some c =>
    rw [ahead_of_ch h,tail_cons,← ahead_advance]
    simp only [wind,h]
    rfl

@[simp] theorem ahead_mark (l : Lexer) : l.mark.ahead = l.ahead := rfl

@[simp] theorem ahead_setToken (l : Lexer) (t : TokenType) : (l.setToken t).ahead = l.ahead := rfl

@[simp] theorem tokenConsumed_wind (l : Lexer) : l.wind.tokenConsumed = l.tokenConsumed := by
  cases h : l.ch <;> simp [wind,h,advance]

structure Onward (l l' : Lexer) : Prop where
  ahead : l'.ahead <+ l.ahead
  consumed : l'.tokenConsumed = l.tokenConsumed

namespace Onward

theorem refl (l : Lexer) : Onward l l := ⟨List.Sublist.refl _,rfl⟩

theorem trans {a b c : Lexer} (h : Onward a b) (h' : Onward b c) : Onward a c :=
  ⟨h'.ahead.trans h.ahead,h'.consumed.trans h.consumed⟩

theorem wind (l : Lexer) : Onward l l.wind := by
  refine ⟨?_,tokenConsumed_wind l⟩
  rw [ahead_wind]
  exact tail_sublist _

theorem mark (l : Lexer) : Onward l l.mark := ⟨List.Sublist.refl _,rfl⟩

theorem setToken (l : Lexer) (t : TokenType) : Onward l (l.setToken t) := ⟨List.Sublist.refl _,rfl⟩

end Onward

structure Shorter (l l' : Lexer) : Prop where
  weight : weight l'.ahead < weight l.ahead
  consumed : l'.tokenConsumed = l.tokenConsumed

private theorem Onward.shorter {l m l' : Lexer} (hm : c :: m.ahead <+ l.ahead)
    (hc : m.tokenConsumed = l.tokenConsumed) (h : Onward m l') : Shorter l l' :=
  ⟨weight_lt ((h.ahead.cons_cons c).trans hm),h.consumed.trans hc⟩

private theorem Onward.shorter_trans {l m l' : Lexer} (h : Onward l m) (h' : Shorter m l') :
    Shorter l l' :=
  ⟨Nat.lt_of_lt_of_le h'.weight (weight_mono h.ahead),h'.consumed.trans h.consumed⟩

theorem Onward.source {s : LexerSource} (h : s.rest <+ l.source.rest) :
    Onward l { l with source := s } := by
  refine ⟨?_,rfl⟩
  unfold Lexer.ahead
  cases l.ch with
  | none => exact List.Sublist.refl _
  | some c => exact h.cons_cons c

private theorem cons_ahead_wind (h : l.ch = some c) :
    c :: l.wind.ahead = l.ahead := by
  rw [ahead_wind,ahead_of_ch h]
  rfl

private theorem Shorter.of_wind {l l' : Lexer} (h : l.ch = some c)
    (hm : Onward l.mark.wind l') : Shorter l l' := by
  have hch : l.mark.ch = some c := h
  have hahead : c :: l.mark.wind.ahead = l.ahead := cons_ahead_wind hch
  have hsub : c :: l.mark.wind.ahead <+ l.ahead := by rw [hahead]
  exact Onward.shorter hsub (tokenConsumed_wind l.mark) hm

variable {p : Option Char → Bool}

private theorem windWhile_onward (hp : p none = false) :
    ∀ (n : Nat) (l : Lexer), l.ahead.length < n → ∃ l', windWhile p n l = some l' ∧
    Onward l l' := by
  intro n
  induction n with
  | zero => intro l hn; exact absurd hn (Nat.not_lt_zero _)
  | succ n ih =>
    intro l hn
    by_cases hl : p l.ch = true
    · cases hch : l.ch with
      | none => rw [hch,hp] at hl; simp at hl
      | some c =>
        have hlen : l.wind.ahead.length < n := by
          rw [← cons_ahead_wind hch,length_cons] at hn
          omega
        obtain ⟨l',hl',hon⟩ := ih l.wind hlen
        refine ⟨l',?_,(Onward.wind l).trans hon⟩
        rw [windWhile,if_pos hl,hl']
    · refine ⟨l,?_,Onward.refl l⟩
      rw [windWhile,if_neg hl]

variable {n : Nat}

private theorem windWhile_first (hp : p none = false) (h : p l.ch = true)
    (hn : l.ahead.length < n) :
    ∃ l', windWhile p n l = some l' ∧ Onward l.wind l' := by
  cases n with
  | zero => exact absurd hn (Nat.not_lt_zero _)
  | succ n =>
    cases hch : l.ch with
    | none => rw [hch,hp] at h; simp at h
    | some c =>
      rw [← cons_ahead_wind hch,length_cons] at hn
      rw [windWhile,if_pos h]
      exact windWhile_onward hp n l.wind (by omega)

private theorem windWhile_stop (h : p l.ch = false) (hn : 0 < n) : windWhile p n l = some l := by
  cases n with
  | zero => exact absurd hn (Nat.lt_irrefl 0)
  | succ n => rw [windWhile,if_neg (by simp [h])]

private theorem windWhile_ahead :
    ∀ (n : Nat) (l l' : Lexer), windWhile p n l = some l' →
      l'.ahead = l.ahead.dropWhile fun c => p (some c) := by
  intro n
  induction n with
  | zero => intro l l' h; simp [windWhile] at h
  | succ n ih =>
    intro l l' h
    rw [windWhile] at h
    split at h
    · rename_i hp
      cases hch : l.ch with
      | none =>
        have hahead : l.ahead = [] := by simp [ahead,hch]
        have hwind := ih l.wind l' h
        rw [ahead_wind,hahead] at hwind
        rw [hwind,hahead]
        rfl
      | some c =>
        rw [ih l.wind l' h,← cons_ahead_wind hch,dropWhile_cons_of_pos]
        rw [← hch]
        exact hp
    · rename_i hp
      obtain rfl := some.inj h
      cases hch : l.ch with
      | none => simp [ahead,hch]
      | some c =>
        rw [← cons_ahead_wind hch,dropWhile_cons_of_neg]
        rw [← hch]
        exact hp

private theorem skipComment_end : ∀ (n : Nat) {l : Lexer}, l.ahead =
    [] → skipComment n l = none := by
  intro n
  induction n with
  | zero => intro l _; rfl
  | succ n ih =>
    intro l h
    have hch : l.ch ≠ some '*' := by rw [ch_eq,h]; simp
    rw [skipComment,if_pos (.inl hch)]
    exact ih (by rw [ahead_wind,h]; rfl)

private theorem skipComment_open : ∀ (n : Nat) {l : Lexer} {c : Char} {cs : List Char},
    l.ahead = c :: cs → afterComment c cs = none → skipComment n l = none := by
  intro n
  induction n with
  | zero => intro l c cs _ _; rfl
  | succ n ih =>
    intro l c cs h hopen
    have hch : l.ch = some c := by rw [ch_eq,h]; rfl
    have hwind : l.wind.ahead = cs := by rw [ahead_wind,h]; rfl
    rw [skipComment,hch,ch_eq l.wind,hwind]
    cases cs with
    | nil =>
      rw [if_pos (.inr (by simp))]
      exact skipComment_end n hwind
    | cons d ds =>
      rw [afterComment] at hopen
      split at hopen
      · simp at hopen
      · rename_i hend
        rw [if_pos (by simpa [← not_and_or] using hend)]
        exact ih hwind hopen

private theorem skipComment_closed : ∀ (n : Nat) {l : Lexer} {c : Char} {cs rest : List Char},
    l.ahead = c :: cs → afterComment c cs = some rest → cs.length < n →
    ∃ l', skipComment n l = some l' ∧ l'.ahead = '/' :: rest ∧
      l'.tokenConsumed = l.tokenConsumed := by
  intro n
  induction n with
  | zero => intro l c cs rest _ _ hn; exact absurd hn (Nat.not_lt_zero _)
  | succ n ih =>
    intro l c cs rest h hrest hn
    have hch : l.ch = some c := by rw [ch_eq,h]; rfl
    have hwind : l.wind.ahead = cs := by rw [ahead_wind,h]; rfl
    rw [skipComment,hch,ch_eq l.wind,hwind]
    cases cs with
    | nil => simp [afterComment] at hrest
    | cons d ds =>
      rw [afterComment] at hrest
      split at hrest
      · rename_i hend
        obtain rfl := some.inj hrest
        refine ⟨l.wind,?_,?_,tokenConsumed_wind l⟩
        · rw [if_neg (by simp [hend])]
        · rw [hwind,hend.2]
      · rename_i hend
        rw [if_pos (by simpa [← not_and_or] using hend)]
        obtain ⟨l',hl',hahead,hcons⟩ := ih hwind hrest (by simpa using hn)
        exact ⟨l',hl',hahead,hcons.trans (tokenConsumed_wind l)⟩

private theorem ahead_setCh {c d : Char} {cs : List Char} (h : l.ahead = c :: cs) :
    (l.setCh d).ahead = d :: cs := by
  have hch : l.ch = some c := by rw [ch_eq,h]; rfl
  rw [ahead_of_ch hch] at h
  rw [ahead_of_ch rfl]
  exact congrArg (d :: ·) (List.cons.inj h).2

theorem skipRound_open {cs : List Char} (n : Nat) (hl : l.ahead = '/' :: '*' :: cs)
    (hopen : afterComment '\n' cs = none) : skipRound n l = none := by
  have hch : l.ch = some '/' := by rw [ch_eq,hl]; rfl
  have hm : l.mark.wind.ahead = '*' :: cs := by rw [ahead_wind,ahead_mark,hl]; rfl
  have hstar : l.mark.wind.ch = some '*' := by rw [ch_eq,hm]; rfl
  have hcomment := skipComment_open n (ahead_setCh (d := '\n') hm) hopen
  simp [skipRound,hch,hstar,hcomment,show isspace '/' = false from rfl]

def RoundCases (n : Nat) (l : Lexer) : Prop :=
  (openComment l.ahead = true ∧ skipRound n l = none) ∨
  (∃ l', skipRound n l = some (.again l') ∧ openComment l'.ahead = openComment l.ahead ∧
    Onward l l' ∧ l'.ahead.length < l.ahead.length) ∨
  (∃ l', skipRound n l = some (.division l') ∧ openComment l.ahead = false ∧ Shorter l l') ∨
  (skipRound n l = some (.break l) ∧ openComment l.ahead = false)

private theorem skipRound_slash {cs : List Char} (hl : l.ahead = '/' :: cs)
    (hn : l.ahead.length < n) : RoundCases n l := by
  have hch : l.ch = some '/' := by rw [ch_eq,hl]; rfl
  have hm : l.mark.wind.ahead = cs := by rw [ahead_wind,ahead_mark,hl]; rfl
  have hon : Onward l l.mark.wind := (Onward.mark l).trans (Onward.wind _)
  have hround : skipRound n l =
      if l.mark.wind.ch = some '/' then
        (windWhile inLineComment n l.mark.wind).map .again
      else if l.mark.wind.ch = some '*' then
        (skipComment n (l.mark.wind.setCh '\n')).map fun l => .again l.wind
      else some (.division l.mark.wind) := by
    simp [skipRound,hch,show isspace '/' = false from rfl]
  unfold RoundCases
  rw [hround,ch_eq l.mark.wind,hm,hl]
  cases cs with
  | nil => exact .inr (.inr (.inl ⟨_,by simp,rfl,Shorter.of_wind hch (Onward.refl _)⟩))
  | cons d ds =>
    rw [hl,length_cons,length_cons] at hn
    by_cases hline : d = '/'
    · subst hline
      obtain ⟨l',hl',hon'⟩ := windWhile_onward (p := inLineComment) rfl n l.mark.wind
        (by rw [hm,length_cons]; omega)
      refine .inr (.inl ⟨l',by simp [hl'],?_,hon.trans hon',?_⟩)
      · have hahead := windWhile_ahead n _ _ hl'
        rw [hahead,hm]
        exact (Mode.foldl_line ds).symm
      · have hlen := hon'.ahead.length_le
        rw [hm] at hlen
        simpa using Nat.lt_succ_of_le hlen
    by_cases hblock : d = '*'
    · subst hblock
      have hnl : (l.mark.wind.setCh '\n').ahead = '\n' :: ds := ahead_setCh hm
      have hopen : openComment ('/' :: '*' :: ds) =
          match afterComment '\n' ds with
          | none => true
          | some rest => openComment rest := Mode.foldl_inComment '\n' ds
      rw [hopen]
      cases hrest : afterComment '\n' ds with
      | none =>
        refine .inl ⟨rfl,?_⟩
        simp [skipComment_open n hnl hrest]
      | some rest =>
        obtain ⟨l',hl',hahead,hcons⟩ := skipComment_closed n hnl hrest (by omega)
        have hwind : l'.wind.ahead = rest := by rw [ahead_wind,hahead]; rfl
        have hsub := afterComment_sublist hrest
        refine .inr (.inl ⟨l'.wind,by simp [hl'],by rw [hwind],⟨?_,?_⟩,?_⟩)
        · rw [hwind,hl]
          exact (hsub.trans (sublist_cons_self _ _)).trans (sublist_cons_self _ _)
        · rw [tokenConsumed_wind,hcons]
          exact hon.consumed
        · have hlen := hsub.length_le
          rw [hwind,length_cons,length_cons]
          omega
    · refine .inr (.inr (.inl ⟨_,by simp [hline,hblock],?_,Shorter.of_wind hch (Onward.refl _)⟩))
      have hstep : (Mode.blank.step '/').step d = .token := by
        simp [Mode.step,hline,hblock,show isspace '/' = false from rfl]
      rw [openComment,foldl_cons,foldl_cons,hstep,Mode.foldl_token]
      rfl

private theorem skipRound_cases (n : Nat) (l : Lexer)
    (hn : l.ahead.length < n) : RoundCases n l := by
  cases hl : l.ahead with
  | nil =>
    unfold RoundCases
    rw [hl]
    have hch : l.ch = none := by rw [ch_eq,hl]; rfl
    exact .inr (.inr (.inr ⟨by simp [skipRound,hch],rfl⟩))
  | cons c cs =>
    have hch : l.ch = some c := by rw [ch_eq,hl]; rfl
    have hwind : l.wind.ahead = cs := by rw [ahead_wind,hl]; rfl
    by_cases hsp : isspace c = true
    · unfold RoundCases
      rw [hl]
      refine .inr (.inl ⟨l.wind,by simp [skipRound,hch,hsp],?_,Onward.wind l,?_⟩)
      · rw [hwind]
        simp [openComment,Mode.step,hsp]
      · simp [hwind]
    by_cases hslash : c = '/'
    · subst hslash
      exact skipRound_slash hl hn
    · unfold RoundCases
      rw [hl]
      refine .inr (.inr (.inr ⟨by simp [skipRound,hch,hsp,hslash],?_⟩))
      have hstep : Mode.blank.step c = .token := by simp [Mode.step,hsp,hslash]
      rw [openComment,foldl_cons,hstep,Mode.foldl_token]
      rfl

theorem skipBlank_open : ∀ (k : Nat) (l : Lexer), l.ahead.length < n →
    openComment l.ahead = true → skipBlank n k l = none := by
  intro k
  induction k with
  | zero => intro l _ _; rfl
  | succ k ih =>
    intro l hn hopen
    rw [skipBlank]
    rcases skipRound_cases n l hn with ⟨_,hr⟩ | ⟨l',hr,hop,_,hlen⟩ | ⟨_,_,hop,_⟩ | ⟨_,hop⟩
    · rw [hr]
    · rw [hr]
      exact ih l' (by omega) (by rw [hop,hopen])
    · rw [hop] at hopen
      simp at hopen
    · rw [hop] at hopen
      simp at hopen

private theorem skipBlank_closed : ∀ (k : Nat) (l : Lexer), l.ahead.length < n →
    l.ahead.length < k → openComment l.ahead = false →
    (∃ l', skipBlank n k l = some (true,l') ∧ Shorter l l') ∨
      (∃ l', skipBlank n k l = some (false,l') ∧ Onward l l') := by
  intro k
  induction k with
  | zero => intro l _ hk; exact absurd hk (Nat.not_lt_zero _)
  | succ k ih =>
    intro l hn hk hopen
    rw [skipBlank]
    rcases skipRound_cases n l hn with ⟨hop,_⟩ | ⟨l',hr,hop,hon,hlen⟩ | ⟨l',hr,_,hsh⟩ | ⟨hr,_⟩
    · rw [hop] at hopen
      simp at hopen
    · rw [hr]
      rcases ih l' (by omega) (by omega) (by rw [hop,hopen]) with ⟨m,hm,hsh⟩ | ⟨m,hm,hon'⟩
      · exact .inl ⟨m,hm,hon.shorter_trans hsh⟩
      · exact .inr ⟨m,hm,hon.trans hon'⟩
    · rw [hr]
      exact .inl ⟨l',rfl,hsh⟩
    · rw [hr]
      exact .inr ⟨l,rfl,Onward.refl l⟩

private theorem octalDigits_onward : ∀ (n : Nat) (t : NumberType) (l : Lexer), l.ahead.length < n →
    t ≠ .none → ∃ t' l', octalDigits n t l = some (t',l') ∧ Onward l l' ∧ t' ≠ .none := by
  intro n
  induction n with
  | zero => intro t l hn; exact absurd hn (Nat.not_lt_zero _)
  | succ n ih =>
    intro t l hn ht
    rw [octalDigits]
    split
    · rename_i hd
      cases hch : l.ch with
      | none => simp [hch] at hd
      | some c =>
        rw [← cons_ahead_wind hch,length_cons] at hn
        have hnext : (if l.wind.ch.any isodigit then t else .real) ≠ NumberType.none := by
          split
          · exact ht
          · simp
        obtain ⟨t',l',hl',hon,ht'⟩ := ih _ l.wind (by omega) hnext
        exact ⟨t',l',hl',(Onward.wind l).trans hon,ht'⟩
    · exact ⟨t,l,rfl,Onward.refl l,ht⟩

/-- A piece of `tokenizeNumber` returns and only drops characters: it ends the tokenizer, or
hands a type with `Q` to the next piece. -/
def PieceEnds (l : Lexer) (x : Option (Lexer ⊕ NumberType × Lexer))
    (Q : NumberType → Lexer → Prop) : Prop :=
  (∃ l', x = some (.inl l') ∧ Onward l l') ∨
    (∃ t l', x = some (.inr (t,l')) ∧ Onward l l' ∧ Q t l')

private theorem integerPart_ends (och : Option Char) (hn : l.ahead.length < n) :
    PieceEnds l (integerPart n och l) fun t l' => t ≠ .none ∨
    (och.any isdigit = false ∧ l' = l) := by
  unfold integerPart
  split
  · split
    · dsimp only
      split
      · exact .inl ⟨_,rfl,(Onward.wind l).trans (Onward.setToken _ _)⟩
      · have hlen : l.wind.ahead.length < n :=
          Nat.lt_of_le_of_lt (Onward.wind l).ahead.length_le hn
        obtain ⟨l',hl',hon⟩ := windWhile_onward (p := (·.any isxdigit)) rfl n l.wind hlen
        exact .inr ⟨.integer,l',by rw [hl']; rfl,(Onward.wind l).trans hon,.inl (by simp)⟩
    · obtain ⟨t,l',hl',hon,ht⟩ := octalDigits_onward n .integer l hn (by simp)
      rw [hl']
      simp only [map_some]
      split
      · exact .inr ⟨.real,l',rfl,hon,.inl (by simp)⟩
      · split
        · exact .inl ⟨_,rfl,hon.trans (Onward.setToken _ _)⟩
        · exact .inr ⟨t,l',rfl,hon,.inl ht⟩
  · split
    · obtain ⟨l',hl',hon⟩ := windWhile_onward (p := (·.any isdigit)) rfl n l hn
      rw [hl']
      simp only [map_some]
      split
      · exact .inr ⟨.real,l',rfl,hon,.inl (by simp)⟩
      · exact .inr ⟨.integer,l',rfl,hon,.inl (by simp)⟩
    · rename_i hd
      exact .inr ⟨.none,l,rfl,Onward.refl l,.inr ⟨by simpa using hd,rfl⟩⟩

private theorem fractionPart_ends (och : Option Char) (t : NumberType) (hn : l.ahead.length < n) :
    PieceEnds l (fractionPart n och t l) fun t' _ =>
      t' ≠ .none ∨ (t' = t ∧ och ≠ some '.' ∧ l.ch ≠ some '.') := by
  unfold fractionPart
  split
  · have hon : Onward l (if l.ch = some '.' then l.wind else l) := by
      split
      · exact Onward.wind l
      · exact Onward.refl l
    dsimp only
    generalize (if l.ch = some '.' then l.wind else l) = m at hon ⊢
    have hlen := Nat.lt_of_le_of_lt hon.ahead.length_le hn
    split
    · obtain ⟨l',hl',hon'⟩ := windWhile_onward (p := (·.any isdigit)) rfl n _ hlen
      exact .inr ⟨.real,l',by rw [hl']; rfl,hon.trans hon',.inl (by simp)⟩
    · split
      · exact .inl ⟨_,rfl,hon.trans (Onward.setToken _ _)⟩
      · exact .inl ⟨_,rfl,hon.trans (Onward.setToken _ _)⟩
  · rename_i h
    exact .inr ⟨t,l,rfl,Onward.refl l,.inr ⟨rfl,not_or.mp h⟩⟩

private theorem exponentPart_ends (t : NumberType) (hn : l.ahead.length < n) :
    PieceEnds l (exponentPart n t l) fun t' _ => t' = t := by
  unfold exponentPart
  split
  · have hon : Onward l (if l.wind.ch = some '+' ∨ l.wind.ch = some '-' then l.wind.wind
        else l.wind) := by
      split
      · exact (Onward.wind l).trans (Onward.wind _)
      · exact Onward.wind l
    dsimp only
    generalize (if l.wind.ch = some '+' ∨ l.wind.ch = some '-' then l.wind.wind
      else l.wind) = m at hon ⊢
    have hlen := Nat.lt_of_le_of_lt hon.ahead.length_le hn
    split
    · exact .inl ⟨_,rfl,hon.trans (Onward.setToken _ _)⟩
    · obtain ⟨l',hl',hon'⟩ := windWhile_onward (p := (·.any isdigit)) rfl n _ hlen
      exact .inr ⟨t,l',by rw [hl']; rfl,hon.trans hon',rfl⟩
  · exact .inr ⟨t,l,rfl,Onward.refl l,rfl⟩

private theorem numberValue_onward (o : Bool) {t : NumberType} (l : Lexer) (ht : t ≠ .none) :
    ∃ l', numberValue o t l = some l' ∧ Onward l l' := by
  have hon : Onward l (if factorOf l.ch = .none then l else l.wind) := by
    split
    · exact Onward.refl l
    · exact Onward.wind l
  unfold numberValue
  cases t with
  | none => exact absurd rfl ht
  | integer | real => exact ⟨_,rfl,hon.ahead,hon.consumed⟩

private theorem tokenizeDigits_onward (o : Bool) (och : Option Char) (hn : l.ahead.length < n)
    (hstart : och.any isdigit = true ∨ och = some '.' ∨ l.ch = some '.') :
    ∃ l', tokenizeDigits o n och l = some l' ∧ Onward l l' := by
  unfold tokenizeDigits
  rcases integerPart_ends och hn with ⟨l₁,h1,hon1⟩ | ⟨t1,l₁,h1,hon1,hq1⟩
  · exact ⟨l₁,by rw [h1]; rfl,hon1⟩
  have hn1 := Nat.lt_of_le_of_lt hon1.ahead.length_le hn
  rcases fractionPart_ends och t1 hn1 with ⟨l₂,h2,hon2⟩ | ⟨t2,l₂,h2,hon2,hq2⟩
  · exact ⟨l₂,by simp [h1,h2],hon1.trans hon2⟩
  have hn2 := Nat.lt_of_le_of_lt hon2.ahead.length_le hn1
  rcases exponentPart_ends t2 hn2 with ⟨l₃,h3,hon3⟩ | ⟨t3,l₃,h3,hon3,rfl⟩
  · exact ⟨l₃,by simp [h1,h2,h3],hon1.trans (hon2.trans hon3)⟩
  have ht : t3 ≠ .none := by
    rcases hq2 with hq | ⟨rfl,hpoint,hpoint'⟩
    · exact hq
    rcases hq1 with hq | ⟨hdigit,rfl⟩
    · exact hq
    simp [hdigit,hpoint,hpoint'] at hstart
  obtain ⟨l4,h4,hon4⟩ := numberValue_onward o l₃ ht
  exact ⟨l4,by simp [h1,h2,h3,h4],hon1.trans (hon2.trans (hon3.trans hon4))⟩

private theorem tokenizeNumber_shorter (o : Bool) (hch : l.ch = some c) (hn : l.ahead.length < n)
    (hc : c = '-' ∨ isdigit c = true ∨ c = '.') :
    ∃ l', tokenizeNumber o n l = some l' ∧ Shorter l l' := by
  have hon : Onward l l.mark.wind := (Onward.mark l).trans (Onward.wind _)
  have hn' := Nat.lt_of_le_of_lt hon.ahead.length_le hn
  suffices ∃ l', tokenizeNumber o n l = some l' ∧ Onward l.mark.wind l' by
    obtain ⟨l',hl',hm⟩ := this
    exact ⟨l',hl',Shorter.of_wind hch hm⟩
  unfold tokenizeNumber
  generalize l.mark.wind = m at hn' ⊢
  dsimp only
  split
  · split
    · rename_i hd
      have hlen := Nat.lt_of_le_of_lt (Onward.wind m).ahead.length_le hn'
      obtain ⟨l',hl',hon'⟩ := tokenizeDigits_onward o m.ch hlen (.inl hd)
      exact ⟨l',hl',(Onward.wind m).trans hon'⟩
    · split
      · rename_i hpoint
        have hrest := LexerSource.rest_lookahead m.source
        generalize (if m.source.next.isSome then m.source.readCharacter.unreadCharacter
          else m.source.readCharacter) = s at hrest ⊢
        have hon' : Onward m { m with source := s } := Onward.source (by rw [hrest])
        split
        · exact ⟨_,rfl,hon'.trans (Onward.setToken _ _)⟩
        · have hlen := Nat.lt_of_le_of_lt hon'.ahead.length_le hn'
          obtain ⟨l',hl',hon''⟩ := tokenizeDigits_onward o l.ch hlen (.inr (.inr hpoint))
          exact ⟨l',hl',hon'.trans hon''⟩
      · exact ⟨_,rfl,Onward.setToken _ _⟩
  · rename_i hminus
    rw [hch] at hminus
    refine tokenizeDigits_onward o _ hn' ?_
    rcases hc with rfl | hd | rfl
    · exact absurd rfl hminus
    · exact .inl (by simp [hch,hd])
    · exact .inr (.inl hch)

private theorem wordToken_onward (l : Lexer) : Onward l l.wordToken := by
  unfold wordToken
  split
  · split
    · exact ⟨List.Sublist.refl _,rfl⟩
    · exact Onward.setToken _ _
  · exact ⟨List.Sublist.refl _,rfl⟩

private theorem tokenizeAlphaHead_shorter (hch : l.ch = some c)
    (hn : l.ahead.length < n) (hc : isalpha c = true ∨ c = '_') :
    ∃ l', tokenizeAlphaHead n l = some l' ∧ Shorter l l' := by
  suffices ∃ l', tokenizeAlphaHead n l = some l' ∧ Onward l.mark.wind l' by
    obtain ⟨l',hl',hm⟩ := this
    exact ⟨l',hl',Shorter.of_wind hch hm⟩
  have hmark : l.mark.ahead.length < n := hn
  have hchm : l.mark.ch = some c := hch
  have hwind : l.mark.wind.ahead.length < n :=
    Nat.lt_of_le_of_lt (Onward.wind _).ahead.length_le hmark
  -- the rest of the word behind its letters
  have hrest : ∀ m : Lexer, m.ahead.length < n → ∃ l',
      (if (m.ch.any fun c => isdigit c || c == '_') = true then
        (windWhile (·.any fun c => isalnum c || c == '_') n m.wind).bind fun l => some { l with
          yylval := { l.yylval with strValue := l.lexBuffer }, tokenType := .identifier }
      else some m.wordToken) = some l' ∧ Onward m l' ∧ (m.ch = some '_' → Onward m.wind l') := by
    intro m hm
    split
    · obtain ⟨l',hl',hon⟩ := windWhile_onward (p := (·.any fun c => isalnum c || c == '_')) rfl n
        m.wind (Nat.lt_of_le_of_lt (Onward.wind m).ahead.length_le hm)
      rw [hl']
      have hon' : Onward m.wind { l' with
          yylval := { l'.yylval with strValue := l'.lexBuffer }, tokenType := .identifier } :=
        ⟨hon.ahead,hon.consumed⟩
      exact ⟨_,rfl,(Onward.wind m).trans hon',fun _ => hon'⟩
    · rename_i hno
      refine ⟨_,rfl,wordToken_onward m,?_⟩
      intro hunder
      simp [hunder] at hno
  unfold tokenizeAlphaHead
  by_cases hal : isalpha c = true
  · obtain ⟨m,hm,hon⟩ := windWhile_first (p := (·.any isalpha)) rfl (by simp [hchm,hal]) hmark
    obtain ⟨l',hl',hon',_⟩ := hrest m (Nat.lt_of_le_of_lt hon.ahead.length_le hwind)
    exact ⟨l',by rw [hm]; exact hl',hon.trans hon'⟩
  · have hunder : l.mark.ch = some '_' := by rw [hchm,hc.resolve_left hal]
    obtain ⟨l',hl',_,hon'⟩ := hrest l.mark hmark
    refine ⟨l',?_,hon' hunder⟩
    rw [windWhile_stop (by simp [hchm,hal]) (by omega)]
    exact hl'

private theorem scanString_onward (delim : Char) :
    ∀ (n : Nat) (odd : Bool) (old : Char) (l : Lexer),
    l.ahead.length < n → ∃ l', scanString delim n odd old l = some l' ∧ Onward l l' := by
  intro n
  induction n with
  | zero => intro odd old l hn; exact absurd hn (Nat.not_lt_zero _)
  | succ n ih =>
    intro odd old l hn
    rw [scanString]
    cases hch : l.ch with
    | none => exact ⟨l,rfl,Onward.refl l⟩
    | some c =>
      dsimp only
      split
      · rw [← cons_ahead_wind hch,length_cons] at hn
        obtain ⟨l',hl',hon⟩ := ih (!odd && c == '\\') c l.wind (by omega)
        exact ⟨l',hl',(Onward.wind l).trans hon⟩
      · exact ⟨l,rfl,Onward.refl l⟩

private theorem readPastSpace_ends : ∀ (n : Nat) (s : LexerSource), s.rest.length < n →
    ∃ s0 : LexerSource, readPastSpace n s = some
    (s0.next,s0.readCharacter) ∧ s0.rest <+ s.rest := by
  intro n
  induction n with
  | zero => intro s hn; exact absurd hn (Nat.not_lt_zero _)
  | succ n ih =>
    intro s hn
    rw [readPastSpace]
    split
    · rename_i hsp
      have htail := LexerSource.rest_readCharacter s
      have hlen : s.readCharacter.rest.length < n := by
        cases hnext : s.next with
        | none => simp [hnext] at hsp
        | some c =>
          rw [LexerSource.rest_of_next hnext,length_cons] at hn
          omega
      obtain ⟨s0,hs0,hsub⟩ := ih s.readCharacter hlen
      refine ⟨s0,hs0,hsub.trans ?_⟩
      rw [htail]
      exact tail_sublist _
    · exact ⟨s,rfl,List.Sublist.refl _⟩

private theorem stringToken_onward (delim : Char) (l : Lexer) : Onward l (stringToken delim l) := by
  have hon := Onward.wind l
  unfold stringToken
  dsimp only
  split
  · exact ⟨hon.ahead,hon.consumed⟩
  · exact ⟨hon.ahead,hon.consumed⟩

private theorem stringParts_onward (delim : Char) : ∀ (k : Nat) (l : Lexer),
    l.ahead.length < n → l.ahead.length < k →
    ∃ l', stringParts delim n k l = some l' ∧ Onward l l' := by
  intro k
  induction k with
  | zero => intro l _ hk; exact absurd hk (Nat.not_lt_zero _)
  | succ k ih =>
    intro l hn hk
    obtain ⟨m,hm,hon⟩ := scanString_onward delim n false '\x00' l hn
    have hmlen := hon.ahead.length_le
    rw [stringParts,hm]
    simp only [bind_eq_bind,bind_some]
    split
    · rename_i hdelim
      have hrest : m.source.rest.length < n := by
        rw [ahead_of_ch hdelim,length_cons] at hmlen
        omega
      obtain ⟨s0,hs0,hsub⟩ := readPastSpace_ends n m.source hrest
      rw [hs0]
      simp only [bind_some]
      split
      · have hlook := LexerSource.rest_lookahead s0
        have hsource : Onward m { m with source :=
            if s0.next.isSome then s0.readCharacter.unreadCharacter else s0.readCharacter } :=
          Onward.source (by rw [hlook]; exact hsub)
        exact ⟨_,rfl,hon.trans (hsource.trans (stringToken_onward delim _))⟩
      · have hsub' : s0.readCharacter.rest <+ m.source.rest := by
          rw [LexerSource.rest_readCharacter]
          exact (tail_sublist _).trans hsub
        have hlen : s0.readCharacter.rest.length < m.ahead.length := by
          rw [ahead_of_ch hdelim,length_cons]
          exact Nat.lt_succ_of_le hsub'.length_le
        have hadv : Onward m ({ m with source := s0.readCharacter } : Lexer).advance := by
          refine ⟨?_,rfl⟩
          rw [ahead_advance,ahead_of_ch hdelim]
          exact hsub'.trans (sublist_cons_self _ _)
        obtain ⟨l',hl',hon'⟩ := ih ({ m with source := s0.readCharacter } : Lexer).advance
          (by rw [ahead_advance]; dsimp only; omega) (by rw [ahead_advance]; dsimp only; omega)
        exact ⟨l',hl',hon.trans (hadv.trans hon')⟩
    · exact ⟨_,rfl,hon.trans (Onward.setToken _ _)⟩

private theorem tokenizeString_shorter (delim : Char) (hch : l.ch = some c)
    (hn : l.ahead.length < n) :
    ∃ l', tokenizeString delim n l = some l' ∧ Shorter l l' := by
  have hlen := Nat.lt_of_le_of_lt (Onward.wind l).ahead.length_le hn
  obtain ⟨l',hl',hon⟩ := stringParts_onward delim n l.wind.mark hlen hlen
  have hsub : c :: l.wind.mark.ahead <+ l.ahead := by
    rw [ahead_mark,cons_ahead_wind hch]
  exact ⟨l',hl',Onward.shorter hsub (tokenConsumed_wind l) hon⟩

private theorem equalsOperator_shorter (hch : l.ch = some '=') :
    Shorter l l.mark.wind.equalsOperator := by
  have hstep {l' : Lexer} : Onward l.mark.wind l' → Shorter l l' := Shorter.of_wind hch
  unfold equalsOperator
  split
  · exact hstep ((Onward.wind _).trans (Onward.setToken _ _))
  · dsimp only
    split
    · exact hstep ((Onward.wind _).trans (Onward.setToken _ _))
    · exact hstep ((Onward.wind _).trans ((Onward.wind _).trans (Onward.setToken _ _)))
  · rename_i hbang
    dsimp only
    have hsource : l.mark.wind.source = l.source.readCharacter := by
      simp [wind,mark,hch,advance]
    have hnext : l.source.next = some '!' := by
      rw [← hbang]
      simp [wind,mark,hch,advance]
    cases hlook : l.mark.wind.source.next with
    | some d =>
      have hon : Onward l.mark.wind { l.mark.wind with source :=
          l.mark.wind.source.readCharacter.unreadCharacter } :=
        Onward.source (by rw [LexerSource.rest_unread_of_next hlook])
      split
      · exact hstep (hon.trans ((Onward.wind _).trans ((Onward.wind _).trans
          (Onward.setToken _ _))))
      · exact hstep (hon.trans (Onward.setToken _ _))
    | none =>
      rw [if_neg (by simp)]
      have hback : l.mark.wind.source.readCharacter.unreadCharacter.rest <+ ['!'] := by
        rw [hsource] at hlook ⊢
        exact LexerSource.rest_unread_of_end hnext hlook
      refine ⟨?_,tokenConsumed_wind l.mark⟩
      rw [ahead_setToken,ahead_of_ch (l := { l.mark.wind with source :=
        l.mark.wind.source.readCharacter.unreadCharacter }) hbang]
      have hsmall := weight_mono (hback.cons_cons '!')
      have hl : weight l.ahead = 3 := by
        rw [ahead_of_ch hch,LexerSource.rest_of_next hnext,← hsource,
          LexerSource.rest_of_end hlook]
        rfl
      rw [hl]
      exact Nat.lt_of_le_of_lt hsmall (by decide)
  · exact hstep (Onward.setToken _ _)

private theorem tokenizePunctOperator_shorter (hch : l.ch = some c) :
    Shorter l l.tokenizePunctOperator := by
  have hstep {l' : Lexer} : Onward l.mark.wind l' → Shorter l l' := Shorter.of_wind hch
  have hset (t : TokenType) : Shorter l (l.mark.wind.setToken t) := hstep (Onward.setToken _ t)
  have hwind (t : TokenType) : Shorter l (l.mark.wind.wind.setToken t) :=
    hstep ((Onward.wind _).trans (Onward.setToken _ t))
  have hwind' (t : TokenType) : Shorter l (l.mark.wind.wind.wind.setToken t) :=
    hstep ((Onward.wind _).trans ((Onward.wind _).trans (Onward.setToken _ t)))
  unfold tokenizePunctOperator
  rw [hch]
  dsimp only
  split
  · exact hset _
  · split
    · split
      · exact hwind _
      · exact hset _
    · split
      · exact hwind _
      · exact hset _
    · split
      · exact hwind _
      · split
        · exact hwind _
        · exact hset _
    · split
      · exact hwind _
      · split
        · split
          · exact hwind' _
          · exact hwind _
        · exact hset _
    · exact equalsOperator_shorter hch
    · split
      · exact hwind _
      · exact hset _
    · exact hset _

structure Stepped (l l' : Lexer) : Prop where
  unconsumed : l'.tokenConsumed = false
  le : weight l'.ahead ≤ weight l.ahead
  lt : l'.tokenType ≠ .endOfInput → weight l'.ahead < weight l.ahead

private theorem tokenize_steps (o : Bool) (hn : l.ahead.length < n)
    (hl : l.tokenConsumed = false) : ∃ l', tokenize o n l = some l' ∧ Stepped l l' := by
  have hshort {l' : Lexer} (h : Shorter l l') : Stepped l l' :=
    ⟨h.consumed.trans hl,Nat.le_of_lt h.weight,fun _ => h.weight⟩
  have hend : Stepped l (l.setToken .endOfInput) :=
    ⟨hl,Nat.le_refl _,fun h => absurd rfl h⟩
  unfold tokenize
  cases hch : l.ch with
  | none => exact ⟨_,rfl,hend⟩
  | some c =>
    dsimp only
    have hpunct : ∃ l', some l.tokenizePunctOperator = some l' ∧ Stepped l l' :=
      ⟨_,rfl,hshort (tokenizePunctOperator_shorter hch)⟩
    have hnumber (hc : c = '-' ∨ isdigit c = true ∨ c = '.') :
        ∃ l', tokenizeNumber o n l = some l' ∧ Stepped l l' := by
      obtain ⟨l',hl',hsh⟩ := tokenizeNumber_shorter o hch hn hc
      exact ⟨l',hl',hshort hsh⟩
    have hstring (delim : Char) : ∃ l', tokenizeString delim n l = some l' ∧ Stepped l l' := by
      obtain ⟨l',hl',hsh⟩ := tokenizeString_shorter delim hch hn
      exact ⟨l',hl',hshort hsh⟩
    split
    · exact ⟨_,rfl,hend⟩
    split
    · rename_i hminus
      split
      · exact hpunct
      · exact hnumber (.inl hminus)
    split
    · rename_i hd
      exact hnumber (.inr (by simpa using hd))
    split
    · rename_i hal
      obtain ⟨l',hl',hsh⟩ := tokenizeAlphaHead_shorter hch hn (by simpa using hal)
      exact ⟨l',hl',hshort hsh⟩
    split
    · exact hstring _
    split
    · exact hstring _
    · exact hpunct

theorem nextToken_open (o : Bool) (hn : l.ahead.length < n)
    (hopen : openComment l.ahead = true) : nextToken o n l = none := by
  unfold nextToken
  rw [skipBlank_open n { l with tokenConsumed := false } hn hopen]

theorem nextToken_steps (o : Bool) (hn : l.ahead.length < n)
    (hopen : openComment l.ahead = false) : ∃ l', nextToken o n l = some l' ∧ Stepped l l' := by
  unfold nextToken
  rcases skipBlank_closed n { l with tokenConsumed := false } hn hn hopen with
    ⟨m,hm,hsh⟩ | ⟨m,hm,hon⟩
  · rw [hm]
    have hlt : weight m.ahead < weight l.ahead := hsh.weight
    exact ⟨_,rfl,hsh.consumed,Nat.le_of_lt hlt,fun _ => hlt⟩
  · rw [hm]
    have hle : weight m.ahead ≤ weight l.ahead := weight_mono hon.ahead
    obtain ⟨l',hl',hst⟩ := tokenize_steps o (Nat.lt_of_le_of_lt hon.ahead.length_le hn) hon.consumed
    exact ⟨l',hl',hst.unconsumed,Nat.le_trans hst.le hle,fun h => Nat.lt_of_lt_of_le (hst.lt h) hle⟩

end Lexer

end Condor.ClassAds
