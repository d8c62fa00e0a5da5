import Condor.Utils.ArgListChannel
import Condor.Utils.Env

/-!
# Environments through one channel

What an environment is written as is read back, unless a variable has the value that marks macros,
or the old syntax is chosen for a name that begins with white space.
-/

namespace Condor

open List

open ArgList (ArgError isArgSpace joinArgs splitArgs splitLoop)

namespace Env

def lookup (env : Env) (var : CString) : Option CString := env.envTable.lookup var

theorem lookup_new (var : CString) : new.lookup var = none := rfl

variable {var : CString}

private theorem lookup_setEnv (env : Env) (hvar : var ≠ []) (val k : CString) :
    (env.setEnv var val).1.lookup k = if k = var then some val else env.lookup k := by
  have h := (env.holds_insert var val).lookup k
  rw [Function.update_apply] at h
  rw [setEnv,if_neg hvar]
  exact h

def IsName (var : CString) : Prop := var ≠ [] ∧ equalsSign ∉ var

/-- An entry that is written so that it can be set again: without a value a name needs a macro
in it. -/
def Settable (e : CString × CString) : Prop :=
  IsName e.1 ∧ (e.2 = noEnvironmentValue → hasMacro e.1 = true)

private theorem takeWhile_name (hvar : equalsSign ∉ var) (rest : CString) :
    (var ++ rest).takeWhile (fun c => c ≠ equalsSign) =
        var ++ rest.takeWhile (fun c => c ≠ equalsSign) ∧
      (var ++ rest).dropWhile (fun c => c ≠ equalsSign) =
        rest.dropWhile (fun c => c ≠ equalsSign) := by
  have hall : ∀ c ∈ var, decide (c ≠ equalsSign) = true := by
    intro c hc
    exact decide_eq_true fun h => hvar (h ▸ hc)
  exact ⟨takeWhile_append_of_pos hall,dropWhile_append_of_pos hall⟩

variable {e : CString × CString}

private theorem setEnv_entryText (env : Env) (he : Settable e) :
    env.setEnvWithErrorMessage (entryText e) = ((env.setEnv e.1 e.2).1,none) := by
  obtain ⟨⟨hne,hname⟩,hmac⟩ := he
  rw [entryText]
  by_cases hval : e.2 = noEnvironmentValue
  · have hdrop := (takeWhile_name hname []).2
    rw [append_nil] at hdrop
    rw [if_pos hval,setEnvWithErrorMessage,if_neg hne,hdrop,hmac hval,hval]
    rfl
  · have hsplit := takeWhile_name hname (equalsSign :: e.2)
    have htake : (equalsSign :: e.2).takeWhile (fun c => c ≠ equalsSign) = [] :=
      takeWhile_cons_of_neg (by simp)
    have hdrop : (equalsSign :: e.2).dropWhile (fun c => c ≠ equalsSign) = equalsSign :: e.2 :=
      dropWhile_cons_of_neg (by simp)
    have hhead : (e.1 ++ equalsSign :: e.2).head? ≠ some equalsSign := by
      rw [head?_append_of_ne_nil _ hne]
      intro h
      exact hname (mem_of_mem_head? h)
    rw [htake,hdrop,append_nil] at hsplit
    rw [if_neg hval,append_assoc,singleton_append,setEnvWithErrorMessage,
      if_neg (by simp [hne]),hsplit.2]
    dsimp only
    rw [if_neg hhead,hsplit.1]

variable {text : CString}

private theorem setEnv_refused (env : Env) (hne : text ≠ []) (hname : equalsSign ∉ text)
    (hmac : hasMacro text = false) :
    env.setEnvWithErrorMessage text = (env,some (.missingEquals text)) := by
  have hdrop := (takeWhile_name hname []).2
  rw [append_nil] at hdrop
  rw [setEnvWithErrorMessage,if_neg hne,hdrop,hmac]
  rfl

variable {texts : List CString}

private theorem setEntries_refused (env : Env)
    (hmem : text ∈ texts) (hne : text ≠ []) (hname : equalsSign ∉ text)
    (hmac : hasMacro text = false) : (env.setEntries texts).2 ≠ none := by
  induction texts generalizing env with
  | nil => simp at hmem
  | cons t texts ih =>
    rw [setEntries]
    rcases List.mem_cons.mp hmem with rfl | hmem
    · rw [env.setEnv_refused hne hname hmac]
      simp
    · split
      · exact ih _ hmem
      · simp

variable {es : List (CString × CString)}

private theorem setEntries_entryText (env : Env)
    (hes : ∀ e ∈ es, Settable e) (hnodup : (es.map Prod.fst).Nodup) :
    ∃ env', env.setEntries (es.map entryText) = (env',none) ∧
      (∀ e ∈ es, env'.lookup e.1 = some e.2) ∧
      ∀ k, k ∉ es.map Prod.fst → env'.lookup k = env.lookup k := by
  induction es generalizing env with
  | nil => exact ⟨env,rfl,by simp,fun k _ => rfl⟩
  | cons e es ih =>
    obtain ⟨hfresh,hrest⟩ := List.nodup_cons.mp hnodup
    have he := hes e (by simp)
    obtain ⟨env',hset,hin,hout⟩ := ih (env.setEnv e.1 e.2).1 (fun x hx => hes x (by simp [hx]))
      hrest
    refine ⟨env',?_,?_,?_⟩
    · rw [map_cons,setEntries,env.setEnv_entryText he]
      exact hset
    · intro x hx
      rcases List.mem_cons.mp hx with rfl | hx
      · rw [hout x.1 hfresh,env.lookup_setEnv he.1.1,if_pos rfl]
      · exact hin x hx
    · intro k hk
      rw [map_cons,mem_cons,not_or] at hk
      rw [hout k hk.2,env.lookup_setEnv he.1.1,if_neg hk.1]

def Named (env : Env) : Prop := ∀ k v, env.lookup k = some v → IsName k

private theorem named_setEnv {env : Env} (h : env.Named) (hvar : IsName var)
    (val : CString) : (env.setEnv var val).1.Named := by
  intro k v hk
  rw [env.lookup_setEnv hvar.1] at hk
  split at hk
  · next heq => exact heq ▸ hvar
  · exact h k v hk

private theorem split_of_dropWhile {text val : CString} {c : CChar}
    (h : text.dropWhile (fun c => c ≠ equalsSign) = c :: val) :
    c = equalsSign ∧ text = text.takeWhile (fun c => c ≠ equalsSign) ++ c :: val := by
  have hhead := head?_dropWhile_not (fun c => decide (c ≠ equalsSign)) text
  have hsplit := takeWhile_append_dropWhile (p := fun c => decide (c ≠ equalsSign))
    (l := text)
  rw [h] at hhead hsplit
  exact ⟨by simpa using hhead,hsplit.symm⟩

private theorem setEnvWithErrorMessage_cases (env : Env) (text : CString) :
    (∃ e, env.setEnvWithErrorMessage text = (env,some e)) ∨
      ∃ var val, IsName var ∧ (entryText (var,val)).length ≤ text.length ∧
        env.setEnvWithErrorMessage text = ((env.setEnv var val).1,none) := by
  rw [setEnvWithErrorMessage]
  by_cases hnil : text = []
  · rw [if_pos hnil]
    exact .inl ⟨_,rfl⟩
  · rw [if_neg hnil]
    have hbefore : equalsSign ∉ text.takeWhile fun c => c ≠ equalsSign := by
      intro hmem
      have h := List.all_eq_true.mp all_takeWhile equalsSign hmem
      simp at h
    cases hdrop : text.dropWhile fun c => c ≠ equalsSign with
    | nil =>
      have hsplit := takeWhile_append_dropWhile (p := fun c => decide (c ≠ equalsSign))
        (l := text)
      rw [hdrop,append_nil] at hsplit
      rw [hsplit] at hbefore
      dsimp only
      split
      · exact .inr ⟨text,noEnvironmentValue,⟨hnil,hbefore⟩,by simp [entryText],rfl⟩
      · exact .inl ⟨_,rfl⟩
    | cons c val =>
      obtain ⟨hc,hsplit⟩ := split_of_dropWhile hdrop
      generalize hvar : (text.takeWhile fun c => c ≠ equalsSign) = var at hsplit hbefore ⊢
      dsimp only
      split
      · exact .inl ⟨_,rfl⟩
      · next hhead =>
        refine .inr ⟨var,val,⟨?_,hbefore⟩,?_,rfl⟩
        · rintro rfl
          rw [hsplit,nil_append,hc] at hhead
          exact hhead rfl
        · have hlen := congrArg List.length hsplit
          rw [length_append,length_cons] at hlen
          simp only [entryText]
          split
          · omega
          · simp only [length_append,length_singleton]
            omega

private theorem named_setEntries {env : Env} (h : env.Named) (texts : List CString) :
    (env.setEntries texts).1.Named := by
  induction texts generalizing env with
  | nil => exact h
  | cons text texts ih =>
    rw [setEntries]
    rcases env.setEnvWithErrorMessage_cases text with ⟨e,heq⟩ | ⟨var,val,hvar,-,heq⟩
    · rw [heq]
      exact h
    · rw [heq]
      exact ih (named_setEnv h hvar val)

variable (platform : EnvPlatform)

private theorem named_mergeFromV2Raw {env : Env} (h : env.Named) (s : CString) :
    (env.mergeFromV2Raw s).1.Named := by
  rw [mergeFromV2Raw]
  split
  · exact h
  · exact named_setEntries h _

private theorem named_mergeV1Loop {env : Env} (h : env.Named) (input : CString) :
    (mergeV1Loop platform env input).1.Named := by
  fun_induction mergeV1Loop platform env input with
  | case1 env => exact h
  | case2 env input hne hless read hnil ih => exact ih h
  | case3 env input hne hless read hread env' hset ih =>
    rcases env.setEnvWithErrorMessage_cases read.1 with ⟨e,heq⟩ | ⟨var,val,hvar,-,heq⟩
    · rw [heq] at hset
      simp at hset
    · rw [heq] at hset
      exact ih ((Prod.mk.inj hset).1 ▸ named_setEnv h hvar val)
  | case4 env input hne hless read hread env' e hset =>
    rcases env.setEnvWithErrorMessage_cases read.1 with ⟨e,heq⟩ | ⟨var,val,hvar,-,heq⟩
    · rw [heq] at hset
      exact (Prod.mk.inj hset).1 ▸ h
    · rw [heq] at hset
      simp at hset

private theorem named_call {env : Env} (h : env.Named) (c : Call) :
    (env.call platform c).1.Named := by
  have hflag : Env.Named { env with inputWasV1 := true } := h
  have hv1 (s : CString) : (env.mergeFromV1Raw platform s).1.Named :=
    named_mergeV1Loop platform hflag s
  cases c with
  | mergeFromV1Raw s => exact hv1 s
  | mergeFromV2Raw s => exact named_mergeFromV2Raw h s
  | mergeFromV1RawOrV2Quoted s =>
    rw [call,mergeFromV1RawOrV2Quoted]
    split
    · split
      · exact h
      · exact named_mergeFromV2Raw h _
    · exact hv1 s
  | setEnv text =>
    rw [call]
    rcases env.setEnvWithErrorMessage_cases text with ⟨e,heq⟩ | ⟨var,val,hvar,-,heq⟩
    · rw [heq]
      exact h
    · rw [heq]
      exact named_setEnv h hvar val

private theorem named_after (calls : List Call) : (after platform calls).Named := by
  have hrun (calls : List Call) {env : Env} (h : env.Named) :
      (calls.foldl (fun env c => (env.call platform c).1) env).Named := by
    induction calls generalizing env with
    | nil => exact h
    | cons c calls ih => exact ih (named_call platform h c)
  exact hrun calls fun k v hk => by simp [lookup_new] at hk

def textSize (texts : List CString) : Nat := (texts.map fun text => text.length + 1).sum

theorem textSize_cons (text : CString) (texts : List CString) :
    textSize (text :: texts) = text.length + 1 + textSize texts := rfl

def size (env : Env) : Nat := textSize (env.envTable.entries.map entryText)

private theorem textSize_perm {texts texts' : List CString} (h : texts.Perm texts') :
    textSize texts = textSize texts' := (h.map _).sum_eq

private theorem nodup_entries (env : Env) : env.envTable.entries.Nodup :=
  List.Nodup.of_map _ env.unique.nodup_keys

private theorem size_congr {env env' : Env} (h : ∀ k, env.lookup k = env'.lookup k) :
    env.size = env'.size := by
  have hperm : env.envTable.entries.Perm env'.envTable.entries := by
    rw [perm_ext_iff_of_nodup env.nodup_entries env'.nodup_entries]
    intro e
    rw [env.unique.mem_entries_iff,env'.unique.mem_entries_iff]
    exact iff_of_eq (congrArg (· = some e.2) (h e.1))
  exact textSize_perm (hperm.map _)

private theorem size_setEnv (env : Env) (hvar : var ≠ []) (val : CString) :
    (env.setEnv var val).1.size ≤ env.size + (entryText (var,val)).length + 1 := by
  have hmem (e : CString × CString) : e ∈ (env.setEnv var val).1.envTable.entries ↔
      e ∈ (var,val) :: env.envTable.entries.filter fun e => e.1 ≠ var := by
    rw [(env.setEnv var val).1.unique.mem_entries_iff]
    change (env.setEnv var val).1.lookup e.1 = some e.2 ↔ _
    rw [env.lookup_setEnv hvar,mem_cons,mem_filter,env.unique.mem_entries_iff]
    by_cases hk : e.1 = var
    · simp [hk,Prod.ext_iff,eq_comm]
    · simp [hk,Prod.ext_iff,lookup]
  have hnodup : ((var,val) :: env.envTable.entries.filter fun e => e.1 ≠ var).Nodup :=
    List.nodup_cons.mpr ⟨by simp,env.nodup_entries.filter _⟩
  have hperm := (perm_ext_iff_of_nodup (env.setEnv var val).1.nodup_entries hnodup).mpr hmem
  have hsub : textSize ((env.envTable.entries.filter fun e => e.1 ≠ var).map entryText) ≤
      textSize (env.envTable.entries.map entryText) := by
    induction env.envTable.entries with
    | nil => exact Nat.le_refl _
    | cons e es ih =>
      rw [filter_cons]
      split
      · rw [map_cons,map_cons,textSize_cons,textSize_cons]
        omega
      · rw [map_cons,textSize_cons]
        omega
  have hsize := textSize_perm (hperm.map entryText)
  rw [map_cons,textSize_cons] at hsize
  rw [size,size]
  omega

private theorem size_setEntries (env : Env) (texts : List CString) :
    (env.setEntries texts).1.size ≤ env.size + textSize texts := by
  induction texts generalizing env with
  | nil => exact Nat.le_add_right _ _
  | cons text texts ih =>
    rw [setEntries]
    rcases env.setEnvWithErrorMessage_cases text with ⟨e,heq⟩ | ⟨var,val,hvar,hlen,heq⟩
    · rw [heq]
      exact Nat.le_add_right _ _
    · have hset := env.size_setEnv hvar.1 val
      have hrest := ih (env.setEnv var val).1
      rw [heq,textSize_cons]
      dsimp only
      omega

private theorem textSize_splitLoop (quote : Option CString) (parsedToken : Bool)
    (buf cs : CString) :
    textSize (splitLoop quote parsedToken buf cs).1 ≤ buf.length + cs.length + 1 := by
  fun_induction splitLoop quote parsedToken buf cs with
  | case1 parsedToken buf =>
    dsimp only
    split
    · exact Nat.le_refl _
    · exact Nat.zero_le _
  | case2 quote parsedToken buf => exact Nat.zero_le _
  | case4 buf c cs hquote hspace rest ih =>
    change textSize (buf :: (splitLoop none false [] cs).1) ≤ _
    rw [length_nil] at ih
    rw [textSize_cons,length_cons]
    omega
  | case3 parsedToken buf cs ih | case5 parsedToken buf c cs hquote hspace hparsed ih
  | case7 quote parsedToken buf ih
  | case10 quote parsedToken buf d cs hquote ih => exact Nat.le_trans ih (by simp)
  | case6 parsedToken buf c cs hquote hspace ih | case9 quote parsedToken buf cs ih
  | case11 quote parsedToken buf c d cs hquote ih =>
    simp only [length_append,length_cons,length_nil] at ih ⊢
    omega
  | case8 quote parsedToken buf c hquote ih =>
    simpa only [length_append,length_nil,Nat.add_zero] using ih

variable {platform}

def strip (text : CString) : CString := text.dropWhile isArgSpace

def Unbroken (text : CString) : Prop :=
  ∀ c ∈ text, c ≠ newlineChar ∧ c ≠ envDelimiter platform

private theorem readEntry_unbroken (h : @Unbroken platform text) (rest : CString) :
    readEntry platform (text ++ envDelimiter platform :: rest) = (text,rest) ∧
      readEntry platform text = (text,[]) := by
  induction text with
  | nil => exact ⟨by simp [readEntry],rfl⟩
  | cons c text ih =>
    obtain ⟨hc,hd⟩ := h c (by simp)
    obtain ⟨hmore,hend⟩ := ih fun x hx => h x (by simp [hx])
    have hneither : ¬ (c = newlineChar ∨ c = envDelimiter platform) := not_or.mpr ⟨hc,hd⟩
    rw [cons_append,readEntry,readEntry,if_neg hneither,if_neg hneither,hmore,hend]
    exact ⟨rfl,rfl⟩

private theorem isArgSpace_delimiter (platform : EnvPlatform) :
    isArgSpace (envDelimiter platform) = false := by
  cases platform <;> rfl

private theorem readFromDelimitedString_unbroken (h : @Unbroken platform text) (rest : CString) :
    readFromDelimitedString platform (text ++ envDelimiter platform :: rest) =
        (strip text,rest) ∧
      readFromDelimitedString platform text = (strip text,[]) := by
  have hstrip : @Unbroken platform (strip text) :=
    fun c hc => h c ((dropWhile_suffix _).mem hc)
  obtain ⟨hmore,hend⟩ := readEntry_unbroken hstrip rest
  have hdrop : (text ++ envDelimiter platform :: rest).dropWhile isArgSpace =
      strip text ++ envDelimiter platform :: rest := by
    rw [List.dropWhile_append]
    split
    · next hnil =>
      rw [List.isEmpty_iff] at hnil
      rw [strip,hnil,dropWhile_cons_of_neg (by rw [isArgSpace_delimiter]; simp)]
      rfl
    · rfl
  rw [readFromDelimitedString,readFromDelimitedString,hdrop]
  exact ⟨hmore,hend⟩

def delimited (platform : EnvPlatform) : List CString → CString
  | [] => []
  | [text] => text
  | text :: texts => text ++ envDelimiter platform :: delimited platform texts

theorem mergeV1Loop_nil (env : Env) : mergeV1Loop platform env [] = (env,none) := by
  rw [mergeV1Loop]
  rfl

private theorem mergeV1Loop_read (env : Env) {input text rest : CString} (hne : input ≠ [])
    (hread : readFromDelimitedString platform input = (text,rest)) {texts : List CString}
    (hrest : ∀ env, mergeV1Loop platform env rest = env.setEntries texts) :
    mergeV1Loop platform env input =
      env.setEntries ((if text ≠ [] then [text] else []) ++ texts) := by
  rw [mergeV1Loop,dif_neg hne]
  dsimp only
  rw [hread]
  dsimp only
  by_cases hnil : text = []
  · rw [if_pos hnil,if_neg fun h => h hnil]
    exact hrest env
  · rw [if_neg hnil,if_pos hnil,singleton_append,setEntries]
    split <;> simp_all

private theorem mergeV1Loop_delimited (env : Env) {texts : List CString}
    (h : ∀ text ∈ texts, @Unbroken platform text) :
    mergeV1Loop platform env (delimited platform texts) =
      env.setEntries ((texts.map strip).filter fun text => text ≠ []) := by
  induction texts generalizing env with
  | nil => exact mergeV1Loop_nil env
  | cons text texts ih =>
    have hread := readFromDelimitedString_unbroken (h text (by simp)) (delimited platform texts)
    have hrest (env : Env) := ih env fun x hx => h x (by simp [hx])
    have hfilter : ((text :: texts).map strip).filter (fun text => text ≠ []) =
        (if strip text ≠ [] then [strip text] else []) ++
          (texts.map strip).filter fun text => text ≠ [] := by
      rw [map_cons,filter_cons]
      by_cases hnil : strip text = [] <;> simp [hnil]
    rw [hfilter]
    cases texts with
    | nil =>
      by_cases hnil : text = []
      · rw [hnil]
        exact mergeV1Loop_nil env
      · exact mergeV1Loop_read env hnil hread.2 hrest
    | cons text' texts => exact mergeV1Loop_read env (by simp) hread.1 hrest

def SafeV1 (platform : EnvPlatform) (e : CString × CString) : Prop :=
  isSafeEnvV1Value platform e.1 none = true ∧ isSafeEnvV1Value platform e.2 none = true

private theorem unbroken_of_safe {str : CString} (h : isSafeEnvV1Value platform str none = true) :
    @Unbroken platform str := by
  intro c hc
  have hsafe := List.all_eq_true.mp h c hc
  simpa [and_comm] using hsafe

private theorem unbroken_entryText (h : SafeV1 platform e) :
    @Unbroken platform (entryText e) := by
  have hequals : equalsSign ≠ newlineChar ∧ equalsSign ≠ envDelimiter platform := by
    cases platform <;> exact ⟨by decide,by decide⟩
  intro c hc
  rw [entryText] at hc
  split at hc
  · exact unbroken_of_safe h.1 c hc
  · rw [append_assoc,mem_append,mem_append,mem_singleton] at hc
    rcases hc with hc | rfl | hc
    · exact unbroken_of_safe h.1 c hc
    · exact hequals
    · exact unbroken_of_safe h.2 c hc

theorem v1RawLoop_safe (h : ∀ e ∈ es, SafeV1 platform e) (emptyString : Bool) (result : CString) :
    v1RawLoop platform none es emptyString result =
      (result ++ (if emptyString || es.isEmpty then [] else [envDelimiter platform]) ++
        delimited platform (es.map entryText),none) := by
  induction es generalizing emptyString result with
  | nil => simp [v1RawLoop,delimited]
  | cons e es ih =>
    obtain ⟨var,val⟩ := e
    have hsafe := h (var,val) (by simp)
    have hboth : (!isSafeEnvV1Value platform var none || !isSafeEnvV1Value platform val none) =
        false := by
      rw [hsafe.1,hsafe.2]
      rfl
    have hstep : v1RawLoop platform none ((var,val) :: es) emptyString result =
        v1RawLoop platform none es false (result ++
          (if emptyString then [] else [envDelimiter platform]) ++ entryText (var,val)) := by
      rw [v1RawLoop,hboth]
      by_cases hval : val = noEnvironmentValue <;> cases emptyString <;>
        simp [entryText,writeToDelimitedString,hval]
    rw [hstep,ih fun x hx => h x (by simp [hx])]
    cases es with
    | nil | cons => simp [delimited]

theorem v1RawLoop_unsafe (h : ∃ e ∈ es, ¬ SafeV1 platform e)
    (emptyString : Bool) (result : CString) :
    ∃ result' e, v1RawLoop platform none es emptyString result = (result',some e) := by
  induction es generalizing emptyString result with
  | nil => simp at h
  | cons e es ih =>
    obtain ⟨var,val⟩ := e
    rw [v1RawLoop]
    split
    · exact ⟨_,_,rfl⟩
    · next hsafe =>
      obtain ⟨x,hx,hrefused⟩ := h
      rcases List.mem_cons.mp hx with rfl | hx
      · exact absurd (by simpa [SafeV1] using hsafe) hrefused
      · exact ih ⟨x,hx,hrefused⟩ _ _

private theorem textSize_delimited (texts : List CString) (h : texts ≠ []) :
    (delimited platform texts).length + 1 = textSize texts := by
  induction texts with
  | nil => exact absurd rfl h
  | cons text texts ih =>
    cases texts with
    | nil => simp [delimited,textSize]
    | cons text' texts =>
      have hrest := ih (by simp)
      change (text ++ envDelimiter platform :: delimited platform (text' :: texts)).length + 1 = _
      rw [textSize_cons,← hrest,length_append,length_cons]
      omega

private theorem textSize_strip (h : ∃ text ∈ texts, strip text ≠ text) :
    textSize ((texts.map strip).filter fun text => text ≠ []) < textSize texts := by
  have hle (texts : List CString) :
      textSize ((texts.map strip).filter fun text => text ≠ []) ≤ textSize texts := by
    induction texts with
    | nil => exact Nat.le_refl _
    | cons text texts ih =>
      have hlen := (dropWhile_suffix (l := text) isArgSpace).length_le
      rw [map_cons,filter_cons,textSize_cons]
      split
      · rw [textSize_cons,strip]
        omega
      · omega
  induction texts with
  | nil => simp at h
  | cons text texts ih =>
    have hrest := hle texts
    have hlen := (dropWhile_suffix (l := text) isArgSpace).length_le
    obtain ⟨x,hx,hstrip⟩ := h
    rw [map_cons,filter_cons,textSize_cons]
    rcases List.mem_cons.mp hx with rfl | hx
    · have hshort : (strip x).length < x.length := by
        refine Nat.lt_of_le_of_ne hlen fun heq => hstrip ?_
        exact (dropWhile_suffix isArgSpace).eq_of_length heq
      split
      · rw [textSize_cons]
        omega
      · omega
    · have hlt := ih ⟨x,hx,hstrip⟩
      split
      · rw [textSize_cons,strip]
        omega
      · omega

/-- What `getDelimitedStringV1or2Raw` writes is read as the same map. -/
def Survives (platform : EnvPlatform) (env : Env) : Prop :=
  let read := new.mergeFromV1or2Raw platform (env.getDelimitedStringV1or2Raw platform [] none)
  read.2 = none ∧ ∀ k, read.1.lookup k = env.lookup k

/-- An entry loses nothing in the old syntax: its name does not begin with white space. -/
def StartsVisibly (var : CString) : Prop := ∀ c, var.head? = some c → isArgSpace c = false

/-- A variable that has the value of a macro has a macro in its name, and no name begins with white
space in the old syntax. -/
def Writable (platform : EnvPlatform) (env : Env) : Prop :=
  (∀ var, env.lookup var = some noEnvironmentValue → hasMacro var = true) ∧
    ((∀ var val, env.lookup var = some val → SafeV1 platform (var,val)) →
      ∀ var val, env.lookup var = some val → StartsVisibly var)

variable {env : Env}

private theorem lookup_iff_mem (env : Env) (var val : CString) :
    env.lookup var = some val ↔ (var,val) ∈ env.envTable.entries :=
  (env.unique.mem_entries_iff (var,val)).symm

def blank (inputWasV1 : Bool) : Env := { new with inputWasV1 := inputWasV1 }

private theorem setEntries_entries (flag : Bool) (hes : ∀ e ∈ env.envTable.entries, Settable e) :
    ∃ env', (blank flag).setEntries (env.envTable.entries.map entryText) = (env',none) ∧
      ∀ k, env'.lookup k = env.lookup k := by
  obtain ⟨env',hset,hin,hout⟩ := (blank flag).setEntries_entryText hes env.unique.nodup_keys
  refine ⟨env',hset,fun k => ?_⟩
  cases hk : env.lookup k with
  | some v => exact hin (k,v) ((env.lookup_iff_mem k v).mp hk)
  | none =>
    refine (hout k ?_).trans (lookup_new k)
    intro hmem
    obtain ⟨e,he,rfl⟩ := List.mem_map.mp hmem
    have hsome := (env.lookup_iff_mem e.1 e.2).mpr he
    rw [hk] at hsome
    simp at hsome

private theorem not_same_of_size (flag : Bool) (h : textSize texts < env.size) :
    ¬ ∀ k, ((blank flag).setEntries texts).1.lookup k = env.lookup k := by
  intro hsame
  have hsize := (blank flag).size_setEntries texts
  have hblank : (blank flag).size = 0 := rfl
  rw [size_congr hsame,hblank] at hsize
  omega

private theorem strip_entryText (hne : e.1 ≠ []) :
    strip (entryText e) = entryText e ↔ StartsVisibly e.1 := by
  obtain ⟨c,cs,hvar⟩ := exists_cons_of_ne_nil hne
  obtain ⟨rest,htext⟩ : ∃ rest, entryText e = c :: rest := by
    rw [entryText,hvar]
    split <;> exact ⟨_,rfl⟩
  rw [htext,strip,StartsVisibly,hvar]
  cases hc : isArgSpace c with
  | false =>
    rw [dropWhile_cons_of_neg (by simp [hc])]
    simp [hc]
  | true =>
    have hlen := (dropWhile_suffix (l := rest) isArgSpace).length_le
    rw [dropWhile_cons_of_pos hc]
    refine iff_of_false ?_ (by simp [hc])
    intro heq
    rw [heq,length_cons] at hlen
    omega

private theorem not_settable (hnamed : env.Named) (h : ¬ ∀ e ∈ env.envTable.entries, Settable e) :
    ∃ e ∈ env.envTable.entries, entryText e = e.1 ∧ IsName e.1 ∧ hasMacro e.1 = false := by
  simp only [not_forall] at h
  obtain ⟨e,he,hnot⟩ := h
  have hname := hnamed e.1 e.2 ((env.lookup_iff_mem e.1 e.2).mpr he)
  have hboth : e.2 = noEnvironmentValue ∧ ¬ hasMacro e.1 = true := by
    by_contra hne
    exact hnot ⟨hname,fun hval => by_contra fun hm => hne ⟨hval,hm⟩⟩
  exact ⟨e,he,if_pos hboth.1,hname,Bool.eq_false_iff.mpr hboth.2⟩

private theorem survives_refused (hnamed : env.Named)
    (hrefused : ∃ e ∈ env.envTable.entries, ¬ SafeV1 platform e) :
    Survives platform env ↔ ∀ e ∈ env.envTable.entries, Settable e := by
  obtain ⟨result,e,hwrite⟩ := v1RawLoop_unsafe hrefused true []
  have hraw : env.getDelimitedStringV1Raw platform [] none = (result,some e) := hwrite
  have htext : env.getDelimitedStringV1or2Raw platform [] none =
      joinArgs (env.envTable.entries.map entryText) [rawV2EnvMarker] := by
    simp [getDelimitedStringV1or2Raw,hraw,getDelimitedStringV2Raw]
  have hhead : (joinArgs (env.envTable.entries.map entryText) [rawV2EnvMarker]).head? =
      some rawV2EnvMarker := ArgList.head_joinArgs rfl _
  have hsplit : splitArgs (joinArgs (env.envTable.entries.map entryText) [rawV2EnvMarker]) =
      (env.envTable.entries.map entryText,none) :=
    ArgList.readsAs_marker.joinArgs (fun h => by simp at h) _
  have hread : new.mergeFromV1or2Raw platform (env.getDelimitedStringV1or2Raw platform [] none) =
      (blank false).setEntries (env.envTable.entries.map entryText) := by
    rw [htext,mergeFromV1or2Raw,if_pos hhead,mergeFromV2Raw,hsplit]
    rfl
  rw [Survives,hread]
  by_cases hes : ∀ e ∈ env.envTable.entries, Settable e
  · obtain ⟨env',hset,hsame⟩ := setEntries_entries false hes
    rw [hset]
    exact iff_of_true ⟨rfl,hsame⟩ hes
  · obtain ⟨e,he,hentry,hname,hmac⟩ := not_settable hnamed hes
    have hmem : e.1 ∈ env.envTable.entries.map entryText :=
      List.mem_map.mpr ⟨e,he,hentry⟩
    exact iff_of_false (fun h => (blank false).setEntries_refused hmem hname.1 hname.2 hmac h.1)
      hes

private theorem reads_delimited (hnamed : env.Named) :
    let read := (blank true).setEntries
      (((env.envTable.entries.map entryText).map strip).filter fun text => text ≠ [])
    (read.2 = none ∧ ∀ k, read.1.lookup k = env.lookup k) ↔
      (∀ e ∈ env.envTable.entries, Settable e) ∧
        ∀ e ∈ env.envTable.entries, StartsVisibly e.1 := by
  have hne (e : CString × CString) (he : e ∈ env.envTable.entries) : e.1 ≠ [] :=
    (hnamed e.1 e.2 ((env.lookup_iff_mem e.1 e.2).mpr he)).1
  dsimp only
  by_cases hvisible : ∀ e ∈ env.envTable.entries, StartsVisibly e.1
  · have hstrip : ((env.envTable.entries.map entryText).map strip).filter (fun text => text ≠ []) =
        env.envTable.entries.map entryText := by
      have hsame : (env.envTable.entries.map entryText).map strip =
          env.envTable.entries.map entryText := by
        rw [map_map]
        exact map_congr_left fun e he => (strip_entryText (hne e he)).mpr (hvisible e he)
      rw [hsame,filter_eq_self]
      intro text htext
      obtain ⟨e,he,rfl⟩ := List.mem_map.mp htext
      have hnonempty := hne e he
      rw [entryText]
      split <;> simp [hnonempty]
    rw [hstrip]
    by_cases hes : ∀ e ∈ env.envTable.entries, Settable e
    · obtain ⟨env',hset,hsame⟩ := setEntries_entries true hes
      rw [hset]
      exact iff_of_true ⟨rfl,hsame⟩ ⟨hes,hvisible⟩
    · obtain ⟨e,he,hentry,hname,hmac⟩ := not_settable hnamed hes
      have hmem : e.1 ∈ env.envTable.entries.map entryText :=
        List.mem_map.mpr ⟨e,he,hentry⟩
      exact iff_of_false
        (fun h => (blank true).setEntries_refused hmem hname.1 hname.2 hmac h.1)
        fun h => hes h.1
  · refine iff_of_false (fun h => ?_) fun h => hvisible h.2
    simp only [not_forall] at hvisible
    obtain ⟨e,he,hnot⟩ := hvisible
    have hmem : ∃ text ∈ env.envTable.entries.map entryText, strip text ≠ text :=
      ⟨entryText e,mem_map_of_mem he,fun heq => hnot ((strip_entryText (hne e he)).mp heq)⟩
    have hshort := textSize_strip hmem
    exact not_same_of_size true hshort h.2

private theorem head_delimited (hne : e.1 ≠ []) (texts : List CString) :
    (delimited platform (entryText e :: texts)).head? = e.1.head? := by
  have hentry : (entryText e).head? = e.1.head? := by
    rw [entryText]
    split
    · rfl
    · rw [append_assoc,head?_append_of_ne_nil _ hne]
  have htext : entryText e ≠ [] := by
    rw [entryText]
    split <;> simp [hne]
  cases texts with
  | nil => exact hentry
  | cons text texts =>
    change (entryText e ++ envDelimiter platform :: delimited platform (text :: texts)).head? = _
    rw [head?_append_of_ne_nil _ htext,hentry]

private theorem survives_safe (hnamed : env.Named)
    (hsafe : ∀ e ∈ env.envTable.entries, SafeV1 platform e) :
    Survives platform env ↔ (∀ e ∈ env.envTable.entries, Settable e) ∧
      ∀ e ∈ env.envTable.entries, StartsVisibly e.1 := by
  have hwrite : env.getDelimitedStringV1Raw platform [] none =
      (delimited platform (env.envTable.entries.map entryText),none) := by
    have h := v1RawLoop_safe hsafe true []
    change v1RawLoop platform none env.envTable.entries true [] = _
    simpa using h
  have htext : env.getDelimitedStringV1or2Raw platform [] none =
      delimited platform (env.envTable.entries.map entryText) := by
    simp [getDelimitedStringV1or2Raw,hwrite]
  rw [Survives,htext]
  by_cases hhead : (delimited platform (env.envTable.entries.map entryText)).head? =
      some rawV2EnvMarker
  · obtain ⟨rest,hrest⟩ := List.head?_eq_some_iff.mp hhead
    rw [mergeFromV1or2Raw,if_pos hhead,mergeFromV2Raw]
    refine iff_of_false (fun h => ?_) fun h => ?_
    · have hnonempty : env.envTable.entries.map entryText ≠ [] := by
        intro hnil
        rw [hnil] at hrest
        simp [delimited] at hrest
      have hsize := @textSize_delimited platform _ hnonempty
      have hsplit := textSize_splitLoop none false [] rest
      have hmarked := ArgList.splitArgs_marked rest
      rw [hrest,length_cons] at hsize
      rw [hrest] at h
      change splitArgs (rawV2EnvMarker :: rest) = splitArgs rest at hmarked
      rw [hmarked] at h
      split at h
      · simp at h
      · next texts hread =>
        have hshort : textSize texts < env.size := by
          change textSize (splitArgs rest).1 ≤ _ at hsplit
          rw [hread,length_nil] at hsplit
          dsimp only at hsplit
          rw [size,← hsize]
          omega
        exact not_same_of_size false hshort h.2
    · cases hentries : env.envTable.entries with
      | nil =>
        rw [hentries] at hhead
        simp [delimited] at hhead
      | cons e es =>
        have he : e ∈ env.envTable.entries := by rw [hentries]; exact mem_cons_self
        have hne := (hnamed e.1 e.2 ((env.lookup_iff_mem e.1 e.2).mpr he)).1
        rw [hentries,map_cons,head_delimited hne] at hhead
        exact absurd (h.2 e he rawV2EnvMarker hhead) (by decide)
  · rw [mergeFromV1or2Raw,if_neg hhead,mergeFromV1Raw]
    have hunbroken : ∀ text ∈ env.envTable.entries.map entryText, @Unbroken platform text := by
      intro text htext
      obtain ⟨e,he,rfl⟩ := List.mem_map.mp htext
      exact unbroken_entryText (hsafe e he)
    have hread := mergeV1Loop_delimited (blank true) hunbroken
    change ((mergeV1Loop platform (blank true) _).2 = none ∧
      ∀ k, (mergeV1Loop platform (blank true) _).1.lookup k = env.lookup k) ↔ _
    rw [hread]
    exact reads_delimited hnamed

/-- An environment that was built by any calls survives the channel exactly if it is writable. -/
theorem envSurvives_iff (platform : EnvPlatform) (calls : List Call) :
    Survives platform (after platform calls) ↔ Writable platform (after platform calls) := by
  have hnamed := named_after platform calls
  generalize after platform calls = env at hnamed
  have hsettable : (∀ e ∈ env.envTable.entries, Settable e) ↔
      ∀ var, env.lookup var = some noEnvironmentValue → hasMacro var = true := by
    constructor
    · intro h var hvar
      exact (h _ ((env.lookup_iff_mem var _).mp hvar)).2 rfl
    · intro h e he
      have hl := (env.lookup_iff_mem e.1 e.2).mpr he
      exact ⟨hnamed e.1 e.2 hl,fun hval => h e.1 (hval ▸ hl)⟩
  have hall (P : CString → CString → Prop) : (∀ var val, env.lookup var = some val → P var val) ↔
      ∀ e ∈ env.envTable.entries, P e.1 e.2 := by
    constructor
    · exact fun h e he => h e.1 e.2 ((env.lookup_iff_mem e.1 e.2).mpr he)
    · exact fun h var val hl => h (var,val) ((env.lookup_iff_mem var val).mp hl)
  rw [Writable,← hsettable,hall fun var val => SafeV1 platform (var,val),
    hall fun var _ => StartsVisibly var]
  by_cases hsafe : ∀ e ∈ env.envTable.entries, SafeV1 platform e
  · rw [survives_safe hnamed hsafe]
    exact and_congr_right fun _ => ⟨fun h _ => h,fun h => h hsafe⟩
  · have hrefused : ∃ e ∈ env.envTable.entries, ¬ SafeV1 platform e := by
      simpa only [not_forall,exists_prop] using hsafe
    rw [survives_refused hnamed hrefused]
    exact ⟨fun h => ⟨h,fun hs => absurd hs hsafe⟩,fun h => h.1⟩

/-- A name that begins with a blank gets the old syntax, and the blank is taken for the marker of
the new one. -/
theorem survives_blank :
    let env := after .unix [.mergeFromV2Raw (cstr "' a=b'")]
    (new.mergeFromV2Raw (cstr "' a=b'")).2 = none ∧
      env.lookup (cstr " a") = some (cstr "b") ∧ ¬ Survives .unix env := by
  refine ⟨by decide,by decide,fun h => ?_⟩
  have hlost := h.2 (cstr " a")
  exact absurd hlost (by decide)

end Env

end Condor
