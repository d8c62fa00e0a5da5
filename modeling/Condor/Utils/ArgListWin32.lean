import Condor.Utils.ArgListChannel

/-!
# Arguments on a Windows command line

`GetArgsStringWin32` quotes an argument with a blank, a tab or a double quote in it, and its text
is read back whatever backslashes it has.
-/

namespace Condor

open List

namespace ArgList

private theorem win32Loop_close (beginQuote buf cs : CString) (n : Nat) :
    win32Loop (.inQuote beginQuote buf (n + n)) (doubleQuote :: cs) =
      win32Loop (.inArg (buf ++ List.replicate n backslash)) cs := by
  have hhalf : (n + n) / 2 = n := by omega
  rw [win32Loop,if_neg (by decide),if_pos rfl,hhalf,if_neg (by omega)]

private theorem win32Loop_literal (beginQuote buf cs : CString) (n : Nat) :
    win32Loop (.inQuote beginQuote buf (n + n + 1)) (doubleQuote :: cs) =
      win32Loop (.inQuote beginQuote (buf ++ List.replicate n backslash ++ [doubleQuote]) 0)
        cs := by
  have hhalf : (n + n + 1) / 2 = n := by omega
  rw [win32Loop,if_neg (by decide),if_pos rfl,hhalf,if_pos (by omega)]

/-- The quoted text of an argument, of which some backslashes have been read: they stand for
themselves unless a quote follows. -/
theorem win32Loop_quoted (beginQuote buf cs : CString) (n : Nat) (arg : CString) :
    win32Loop (.inQuote beginQuote buf n) (quotedWin32Loop n arg ++ cs) =
      win32Loop (.inArg (buf ++ List.replicate n backslash ++ arg)) cs := by
  induction arg generalizing buf n with
  | nil =>
    rw [quotedWin32Loop,append_assoc,win32Loop_backslashes,singleton_append,
      win32Loop_close,append_nil]
  | cons c arg ih =>
    rw [quotedWin32Loop]
    by_cases hback : c = backslash
    · subst hback
      rw [if_pos rfl,cons_append,win32Loop,if_pos rfl,ih,replicate_succ']
      simp only [append_assoc,singleton_append]
    · rw [if_neg hback]
      by_cases hquote : c = doubleQuote
      · subst hquote
        rw [if_pos rfl,append_assoc,append_assoc,win32Loop_backslashes]
        have hlit := win32Loop_literal beginQuote buf (quotedWin32Loop 0 arg ++ cs) n
        rw [cons_append,singleton_append,win32Loop,if_pos rfl,hlit,ih]
        simp
      · rw [if_neg hquote,cons_append,win32Loop,if_neg hback,if_neg hquote,ih]
        simp

private theorem win32Loop_unquoted {arg : CString} (harg : isSpecialWin32 arg = false)
    (cs : CString)
    (hcs : cs = [] ∨ cs.head? = some space) (parsedToken : Bool) (buf : CString)
    (hbuf : parsedToken = false → buf = []) :
    win32Loop (if parsedToken then .inArg buf else .between) (arg ++ cs) =
      prepend (unixLoop parsedToken buf arg) (win32Loop .between cs) := by
  induction arg generalizing parsedToken buf with
  | nil =>
    rw [nil_append,unixLoop]
    cases parsedToken with
    | false => rfl
    | true =>
      rcases hcs with rfl | hhead
      · rfl
      · obtain ⟨rest,rfl⟩ := List.head?_eq_some_iff.mp hhead
        have hspace : isArgSpace space = true := by decide
        simp only [if_true,win32Loop,hspace]
        rfl
  | cons c arg ih =>
    rw [isSpecialWin32,any_cons,Bool.or_eq_false_iff] at harg
    obtain ⟨hc,hrest⟩ := harg
    have hquote : c ≠ doubleQuote := by
      intro h
      rw [h] at hc
      exact absurd hc (by decide)
    rw [cons_append,unixLoop]
    cases parsedToken with
    | false =>
      obtain rfl := hbuf rfl
      have hstay := ih hrest false [] fun _ => rfl
      have hword := ih hrest true [c] (by simp)
      simp only [Bool.false_eq_true,if_false,if_true] at hstay hword ⊢
      rw [win32Loop,if_neg hquote,hstay,hword]
      split <;> rfl
    | true =>
      have hstay := ih hrest false [] fun _ => rfl
      have hword := ih hrest true (buf ++ [c]) (by simp)
      simp only [Bool.false_eq_true,if_false,if_true] at hstay hword ⊢
      rw [win32Loop,if_neg hquote,hstay,hword]
      split <;> rfl

def win32Pieces (arg : CString) : List CString :=
  if isSpecialWin32 arg then [arg] else unixLoop false [] arg

private theorem win32Loop_arg (arg cs : CString) (hcs : cs = [] ∨ cs.head? = some space) :
    win32Loop .between
        ((if isSpecialWin32 arg then [doubleQuote] ++ quotedWin32Loop 0 arg else arg) ++ cs) =
      prepend (win32Pieces arg) (win32Loop .between cs) := by
  rw [win32Pieces]
  cases harg : isSpecialWin32 arg with
  | true =>
    have hquote : isArgSpace doubleQuote = false := by decide
    have hread := win32Loop_quoted (doubleQuote :: (quotedWin32Loop 0 arg ++ cs)) [] cs 0 arg
    rw [if_pos rfl,if_pos rfl,append_assoc,singleton_append,win32Loop,hquote,
      if_neg (by decide),if_pos rfl,hread]
    rcases hcs with rfl | hhead
    · rfl
    · obtain ⟨rest,rfl⟩ := List.head?_eq_some_iff.mp hhead
      have hspace : isArgSpace space = true := by decide
      simp only [win32Loop,hspace]
      rfl
  | false =>
    have hread := win32Loop_unquoted harg cs hcs false [] fun _ => rfl
    simpa using hread

/-- A text is read as some arguments, whatever comes behind it in the next ones. -/
def ReadsWin32 (text : CString) (args : List CString) : Prop :=
  ∀ cs : CString, cs = [] ∨ cs.head? = some space →
    win32Loop .between (text ++ cs) = prepend args (win32Loop .between cs)

theorem ReadsWin32.append {text : CString} {args : List CString} (h : ReadsWin32 text args)
    (arg : CString) :
    ReadsWin32 (appendArgWin32 false text arg) (args ++ win32Pieces arg) := by
  intro cs hcs
  have hpiece := win32Loop_arg arg cs hcs
  have happend (text' : CString) :
      appendArgWin32 false text arg ++ cs = text' ↔
        (if text ≠ [] then text ++ [space] else text) ++
          ((if isSpecialWin32 arg then [doubleQuote] ++ quotedWin32Loop 0 arg else arg) ++ cs) =
            text' := by
    rw [appendArgWin32]
    cases isSpecialWin32 arg <;> simp
  rw [(happend _).mpr rfl]
  by_cases htext : text = []
  · have hnil : args = [] := by
      have hstart := h [] (.inl rfl)
      rw [htext] at hstart
      have hargs := congrArg Prod.fst hstart
      simpa [win32Loop,prepend] using hargs.symm
    rw [htext,if_neg (by simp),nil_append,hpiece,hnil,nil_append]
  · have hspace : isArgSpace space = true := by decide
    rw [if_pos htext,append_assoc,h _ (.inr rfl),singleton_append,win32Loop,
      if_pos hspace,hpiece]
    simp only [prepend,append_assoc]

private theorem read_win32 (l : ArgList) (hl : l.inputWasUnknownPlatformV1 = false) :
    new.appendArgsV1RawWin32 (l.getArgsStringWin32 0 []) =
      ({ new with argsList := l.argsList.flatMap win32Pieces },none) := by
  have hfold (more : List CString) {text : CString} {args : List CString}
      (h : ReadsWin32 text args) :
      ReadsWin32 (more.foldl (appendArgWin32 false) text) (args ++ more.flatMap win32Pieces) := by
    induction more generalizing text args with
    | nil =>
      rw [flatMap_nil,append_nil]
      exact h
    | cons arg more ih =>
      rw [flatMap_cons,← append_assoc]
      exact ih (h.append arg)
  have hnil : ReadsWin32 [] [] := fun cs _ => rfl
  have hread := hfold l.argsList hnil [] (.inl rfl)
  rw [append_nil,nil_append] at hread
  rw [getArgsStringWin32,drop_zero,hl,appendArgsV1RawWin32,hread]
  simp [appendRead,prepend,win32Loop,new]

private theorem unixLoop_words {w : CString} (cs buf : CString) (parsedToken : Bool)
    (hbuf : ∀ c ∈ buf, isArgSpace c = false) (hw : w ∈ unixLoop parsedToken buf cs)
    (hparsed : parsedToken = true → buf ≠ []) :
    w ≠ [] ∧ ∀ c ∈ w, isArgSpace c = false := by
  induction cs generalizing buf parsedToken with
  | nil =>
    rw [unixLoop] at hw
    cases parsedToken with
    | false => simp at hw
    | true =>
      obtain rfl : w = buf := by simpa using hw
      exact ⟨hparsed rfl,hbuf⟩
  | cons c cs ih =>
    rw [unixLoop] at hw
    by_cases hc : isArgSpace c = true
    · rw [if_pos hc] at hw
      cases parsedToken with
      | false => exact ih buf false hbuf (by simpa using hw) (by simp)
      | true =>
        rcases List.mem_cons.mp (by simpa using hw : w ∈ buf :: unixLoop false [] cs) with rfl | hw
        · exact ⟨hparsed rfl,hbuf⟩
        · exact ih [] false (by simp) hw (by simp)
    · rw [if_neg hc] at hw
      refine ih (buf ++ [c]) true ?_ hw (by simp)
      intro d hd
      rcases List.mem_append.mp hd with hd | hd
      · exact hbuf d hd
      · rw [List.mem_singleton.mp hd]
        simpa using hc

private theorem unixLoop_word {arg : CString} (hne : arg ≠ [])
    (harg : ∀ c ∈ arg, isArgSpace c = false) : unixLoop false [] arg = [arg] := by
  have hsafe : isSafeArgV1Value arg = true := by
    rw [isSafeArgV1Value,all_eq_true]
    intro c hc
    simp [harg c hc]
  have hread := unixLoop_safe hsafe [] [] false
  rw [append_nil] at hread
  rw [hread,unixLoop]
  simp [hne]

theorem win32Pieces_eq_iff (arg : CString) : win32Pieces arg = [arg] ↔
    isSpecialWin32 arg = true ∨ (arg ≠ [] ∧ ∀ c ∈ arg, isArgSpace c = false) := by
  rw [win32Pieces]
  cases isSpecialWin32 arg with
  | true => simp
  | false =>
    simp only [Bool.false_eq_true,if_false,false_or]
    constructor
    · intro h
      exact unixLoop_words arg [] false (by simp) (by rw [h]; simp) (by simp)
    · rintro ⟨hne,harg⟩
      exact unixLoop_word hne harg

private theorem win32Pieces_of_mem {arg piece : CString} (h : piece ∈ win32Pieces arg) :
    win32Pieces piece = [piece] := by
  by_cases harg : isSpecialWin32 arg = true
  · rw [win32Pieces,if_pos harg,mem_singleton] at h
    rw [h,win32Pieces,if_pos harg]
  · rw [win32Pieces,if_neg harg] at h
    exact (win32Pieces_eq_iff piece).mpr
      (.inr (unixLoop_words arg [] false (by simp) h (by simp)))

/-- A list survives the Windows command line exactly if every argument is quoted, or is not empty
and has no newline or return. -/
theorem win32_survives_iff (l : ArgList) (hl : l.inputWasUnknownPlatformV1 = false) :
    ((new.appendArgsV1RawWin32 (l.getArgsStringWin32 0 [])).2 = none ∧
      (new.appendArgsV1RawWin32 (l.getArgsStringWin32 0 [])).1.argsList = l.argsList) ↔
    ∀ arg ∈ l.argsList,
      isSpecialWin32 arg = true ∨ (arg ≠ [] ∧ ∀ c ∈ arg, c.val ≠ 10 ∧ c.val ≠ 13) := by
  have hpiece (arg : CString) : win32Pieces arg = [arg] ↔
      isSpecialWin32 arg = true ∨ (arg ≠ [] ∧ ∀ c ∈ arg, c.val ≠ 10 ∧ c.val ≠ 13) := by
    rw [win32Pieces_eq_iff]
    by_cases harg : isSpecialWin32 arg = true
    · simp [harg]
    · have hplain (c : CChar) (hc : c ∈ arg) : c.val ≠ 32 ∧ c.val ≠ 9 := by
        rw [isSpecialWin32,any_eq_true,not_exists] at harg
        have hno := harg c
        simp only [hc,true_and,Bool.or_eq_true,decide_eq_true_eq,not_or] at hno
        exact hno.1
      refine or_congr Iff.rfl (and_congr Iff.rfl (forall₂_congr fun c hc => ?_))
      obtain ⟨hblank,htab⟩ := hplain c hc
      simp [isArgSpace,hblank,htab]
  rw [read_win32 l hl]
  simp only [true_and,← hpiece]
  constructor
  · intro h arg harg
    rw [← h] at harg
    obtain ⟨arg',_,hmem⟩ := List.mem_flatMap.mp harg
    exact win32Pieces_of_mem hmem
  · intro h
    calc l.argsList.flatMap win32Pieces
        = l.argsList.flatMap fun arg => [arg] := flatMap_congr h
      _ = l.argsList := by simp

/-- Backslashes in front of quotes and at the end of an argument. -/
theorem win32_survives_quotes :
    ((new.appendArgsV1RawWin32 ((⟨[cstr "a\\\"b c\\",cstr "d\\"],.win32ArgV1Syntax,false⟩ :
        ArgList).getArgsStringWin32 0 [])).2 = none ∧
      (new.appendArgsV1RawWin32 ((⟨[cstr "a\\\"b c\\",cstr "d\\"],.win32ArgV1Syntax,false⟩ :
        ArgList).getArgsStringWin32 0 [])).1.argsList =
          [cstr "a\\\"b c\\",cstr "d\\"]) :=
  (win32_survives_iff ⟨[cstr "a\\\"b c\\",cstr "d\\"],.win32ArgV1Syntax,false⟩ rfl).mpr
    (by decide +kernel)

/-- The empty argument is lost. -/
theorem win32_loses_empty :
    ¬ (new.appendArgsV1RawWin32 ((⟨[cstr "a",[]],.win32ArgV1Syntax,false⟩ :
      ArgList).getArgsStringWin32 0 [])).1.argsList = [cstr "a",[]] := by
  decide

end ArgList

end Condor
