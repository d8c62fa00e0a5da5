import Condor.Lib.OrderedMap
import Condor.Utils.CString

/-!
# Url-encoded parameters

The parameters of an address are written as `key=value` pairs with `%XX` escapes. The encoder
prints an escape with `sprintf` into a buffer of four bytes; `char` is signed.
-/

namespace Condor.Url

open Lib List Option

/-- A `std::string`, which is compared byte by byte. -/
structure StdString where
  chars : List Byte
  deriving DecidableEq

namespace StdString

private theorem key_injective :
    Function.Injective fun s : StdString => s.chars.map UInt8.toNat := by
  intro s t h
  cases s
  cases t
  exact congrArg StdString.mk (List.map_injective_iff.mpr (fun _ _ => UInt8.toNat_inj.mp) h)

instance : LinearOrder StdString := LinearOrder.lift' _ key_injective

def c_str (s : StdString) : List Byte := s.chars.takeWhile (· ≠ 0)

def ofC (s : CString) : StdString := ⟨bytes s⟩

end StdString

abbrev Params := OrderedMap StdString StdString

def percent : Byte := 37

def ampersand : Byte := 38

def semicolon : Byte := 59

def equals : Byte := 61

/-- `isalnum` in the "C" locale. -/
def isalnum (b : Byte) : Bool := isdigit b || (65 ≤ b && b ≤ 90) || (97 ≤ b && b ≤ 122)

def needsUrlEncodeEscape (b : Byte) : Bool :=
  !(isalnum b || b == 46 || b == 95 || b == 45 || b == 58 || b == 35)

/-- `strcspn`: how many bytes come before the first of the stop bytes. -/
def strcspn (s stop : List Byte) : Nat := (s.takeWhile fun b => b ∉ stop).length

def signedChar (b : Byte) : Int := if b < 128 then b.toNat else (b.toNat : Int) - 256

def hexDigit (d : Nat) : Byte := if d < 10 then UInt8.ofNat (48 + d) else UInt8.ofNat (87 + d)

/-- `%02x`, of an `int`. -/
def printHex (v : Int) : List Byte :=
  let n := (v % 2^32).toNat
  if n < 16 then [48,hexDigit n] else ((Nat.digits 16 n).reverse).map hexDigit

/-- The escape of a byte, and none where it does not fit `char code[4]`. -/
def escape (b : Byte) : Option (List Byte) :=
  let code := percent :: printHex (signedChar b)
  if code.length + 1 ≤ 4 then some code else none

def urlEncode : List Byte → Option (List Byte)
  | [] => some []
  | b :: str =>
    if needsUrlEncodeEscape b then
      (escape b).bind fun code => (urlEncode str).map (code ++ ·)
    else (urlEncode str).map (b :: ·)

/-- The loop of `urlEncodeParams`, with what has been written. -/
def urlEncodeLoop : List (StdString × StdString) → List Byte → Option (List Byte)
  | [], result => some result
  | e :: es, result =>
    let result := if result = [] then result else result ++ [ampersand]
    (urlEncode e.1.c_str).bind fun key =>
      if e.2.chars = [] then urlEncodeLoop es (result ++ key)
      else (urlEncode e.2.c_str).bind fun value =>
        urlEncodeLoop es (result ++ key ++ [equals] ++ value)

def urlEncodeParams (params : Params) : Option (List Byte) := urlEncodeLoop params.entries []

def hexValue (b : Byte) : Option Byte :=
  if 48 ≤ b && b ≤ 57 then some (b - 48)
  else if 97 ≤ b && b ≤ 102 then some (b - 97 + 10)
  else if 65 ≤ b && b ≤ 70 then some (b - 65 + 10)
  else none

def decodeEscape : List Byte → Option (Byte × List Byte)
  | d1 :: d2 :: str =>
    (hexValue d1).bind fun h1 => (hexValue d2).map fun h2 => (h1 <<< 4 ||| h2,str)
  | _ => none

/-- The loop of `urlDecode`; none is a failure. -/
def urlDecodeLoop (max : Nat) : Nat → List Byte → Nat → List Byte → Option (List Byte)
  | 0, _, _, _ => none
  | fuel+1, str, consumed, result =>
    if str = [] then some result
    else
      let len := strcspn str [percent]
      let len := if max < len + consumed then max - consumed else len
      let result := result ++ str.take len
      let consumed := consumed + len
      if consumed = max then some result
      else
        match str.drop len with
        | b :: rest =>
          if b = percent then
            (decodeEscape rest).bind fun r =>
              urlDecodeLoop max fuel r.2 (consumed + 3) (result ++ [r.1])
          else urlDecodeLoop max fuel (b :: rest) consumed result
        | [] => some result

def urlDecode (str : List Byte) (max : Nat) : Option (List Byte) :=
  urlDecodeLoop max (str.length + 1) str 0 []

/-- The loop of `parseUrlEncodedParams`; the flag is what it returns. -/
def parseLoop : Nat → List Byte → Params → Bool × Params
  | 0, _, params => (false,params)
  | fuel+1, str, params =>
    let str := str.dropWhile fun b => b == semicolon || b == ampersand
    if str = [] then (true,params)
    else
      let len := strcspn str [equals,ampersand,semicolon]
      if len = 0 then (false,params)
      else
        match urlDecode str len with
        | none => (false,params)
        | some key =>
          match str.drop len with
          | b :: rest =>
            if b = equals then
              let len := strcspn rest [ampersand,semicolon]
              match urlDecode rest len with
              | none => (false,params)
              | some value => parseLoop fuel (rest.drop len) (params.insert ⟨key⟩ ⟨value⟩)
            else parseLoop fuel (b :: rest) (params.insert ⟨key⟩ ⟨[]⟩)
          | [] => parseLoop fuel [] (params.insert ⟨key⟩ ⟨[]⟩)

def parseUrlEncodedParams (str : List Byte) (params : Params) : Bool × Params :=
  parseLoop (str.length + 1) str params

def code (b : Byte) : List Byte :=
  if needsUrlEncodeEscape b then [percent,hexDigit (b.toNat / 16),hexDigit (b.toNat % 16)] else [b]

def encoded (s : List Byte) : List Byte := s.flatMap code

theorem encoded_cons (b : Byte) (s : List Byte) : encoded (b :: s) = code b ++ encoded s :=
  flatMap_cons

def Ascii (s : List Byte) : Prop := ∀ b ∈ s, b.toNat < 128

instance (s : List Byte) : Decidable (Ascii s) := List.decidableBAll _ s

private theorem escape_ascii_check : ∀ n < 128, escape (UInt8.ofNat n) =
    some [percent,hexDigit (n / 16),hexDigit (n % 16)] := by decide

private theorem escape_high_check : ∀ n < 128, escape (UInt8.ofNat (128 + n)) = none ∧
    needsUrlEncodeEscape (UInt8.ofNat (128 + n)) = true := by decide

private theorem hexDigit_check : ∀ d < 16, needsUrlEncodeEscape (hexDigit d) = false ∧
    hexValue (hexDigit d) = some (UInt8.ofNat d) := by decide

private theorem nibbles_check : ∀ n < 128,
    UInt8.ofNat (n / 16) <<< 4 ||| UInt8.ofNat (n % 16) = UInt8.ofNat n := by decide

private theorem escape_ascii {b : Byte} (h : b.toNat < 128) :
    escape b = some [percent,hexDigit (b.toNat / 16),hexDigit (b.toNat % 16)] := by
  have hcheck := escape_ascii_check b.toNat h
  rwa [UInt8.ofNat_toNat] at hcheck

private theorem escape_high {b : Byte} (h : ¬b.toNat < 128) :
    escape b = none ∧ needsUrlEncodeEscape b = true := by
  have hlt := b.toNat_lt
  have hcheck := escape_high_check (b.toNat - 128) (by omega)
  rwa [Nat.add_sub_cancel' (Nat.not_lt.mp h),UInt8.ofNat_toNat] at hcheck

variable {s : List Byte}

private theorem urlEncode_ascii (h : Ascii s) : urlEncode s = some (encoded s) := by
  induction s with
  | nil => rfl
  | cons b s ih =>
    have hb := h b (mem_cons_self ..)
    have hs := ih fun c hc => h c (mem_cons_of_mem b hc)
    rw [urlEncode,hs,encoded_cons,code]
    split
    · rw [escape_ascii hb]
      rfl
    · rfl

private theorem urlEncode_high (h : ¬Ascii s) : urlEncode s = none := by
  induction s with
  | nil => exact absurd (fun b hb => absurd hb not_mem_nil) h
  | cons b s ih =>
    rw [urlEncode]
    by_cases hb : b.toNat < 128
    · have hs : urlEncode s = none := by
        apply ih
        intro hall
        apply h
        intro c hc
        cases List.mem_cons.mp hc with
        | inl he => rwa [he]
        | inr hm => exact hall c hm
      rw [hs]
      split
      · rw [escape_ascii hb]
        rfl
      · rfl
    · rw [if_pos (escape_high hb).2,(escape_high hb).1]
      rfl

theorem mem_encoded (h : Ascii s) {c : Byte} (hc : c ∈ encoded s) :
    needsUrlEncodeEscape c = false ∨ c = percent := by
  obtain ⟨b,hb,hcb⟩ := List.mem_flatMap.mp hc
  have hlt := h b hb
  rw [code] at hcb
  split at hcb
  · have hhigh := (hexDigit_check (b.toNat / 16) (by omega)).1
    have hlow := (hexDigit_check (b.toNat % 16) (by omega)).1
    simp only [mem_cons,not_mem_nil,or_false] at hcb
    rcases hcb with rfl | rfl | rfl
    · exact .inr rfl
    · exact .inl hhigh
    · exact .inl hlow
  · next hneed =>
    rw [List.mem_singleton.mp hcb]
    exact .inl (Bool.eq_false_iff.mpr hneed)

theorem not_mem_encoded (h : Ascii s) {c : Byte}
    (hneed : needsUrlEncodeEscape c = true) (hc : c ≠ percent) : c ∉ encoded s := by
  intro hm
  cases mem_encoded h hm with
  | inl hnot => exact Bool.false_ne_true (hnot.symm.trans hneed)
  | inr he => exact hc he

theorem code_ne_nil (b : Byte) : code b ≠ [] := by
  rw [code]
  split <;> exact cons_ne_nil _ _

theorem encoded_eq_nil : encoded s = [] ↔ s = [] := by
  constructor
  · intro h
    cases s with
    | nil => rfl
    | cons b s =>
      rw [encoded_cons,append_eq_nil_iff] at h
      exact absurd h.1 (code_ne_nil b)
  · intro h
    rw [h]
    rfl

theorem encoded_append (s t : List Byte) : encoded (s ++ t) = encoded s ++ encoded t :=
  flatMap_append

private theorem encoded_plain (h : ∀ b ∈ s, needsUrlEncodeEscape b = false) :
    encoded s = s := by
  induction s with
  | nil => rfl
  | cons b s ih =>
    have hb := h b (mem_cons_self ..)
    have hs := ih fun c hc => h c (mem_cons_of_mem b hc)
    rw [encoded_cons,hs,code,hb]
    rfl

private theorem decodeEscape_code {b : Byte} (h : b.toNat < 128) (rest : List Byte) :
    decodeEscape (hexDigit (b.toNat / 16) :: hexDigit (b.toNat % 16) :: rest) = some (b,rest) := by
  have hnib := nibbles_check b.toNat h
  rw [UInt8.ofNat_toNat] at hnib
  rw [decodeEscape,(hexDigit_check _ (by omega)).2,(hexDigit_check _ (by omega)).2,
    bind_some,map_some,hnib]

theorem strcspn_append {s stop : List Byte} (hs : ∀ b ∈ s, b ∉ stop) (rest : List Byte) :
    strcspn (s ++ rest) stop = s.length + strcspn rest stop := by
  have h : ∀ b ∈ s, decide (b ∉ stop) = true := fun b hb => decide_eq_true (hs b hb)
  rw [strcspn,takeWhile_append_of_pos h,length_append]
  rfl

theorem strcspn_stop {b : Byte} {stop : List Byte} (h : b ∈ stop) (rest : List Byte) :
    strcspn (b :: rest) stop = 0 := by
  rw [strcspn,takeWhile_cons_of_neg]
  · rfl
  · simp [h]

private theorem encoded_split (s : List Byte) :
    ∃ p q, s = p ++ q ∧ (∀ b ∈ p, needsUrlEncodeEscape b = false) ∧
      (q = [] ∨ ∃ b q', q = b :: q' ∧ needsUrlEncodeEscape b = true) := by
  refine ⟨s.takeWhile fun b => !needsUrlEncodeEscape b,s.dropWhile fun b => !needsUrlEncodeEscape b,
    List.takeWhile_append_dropWhile.symm,?_,?_⟩
  · intro b hb
    have h := mem_takeWhile_imp hb
    rwa [Bool.not_eq_true'] at h
  · cases hq : s.dropWhile fun b => !needsUrlEncodeEscape b with
    | nil => exact .inl rfl
    | cons b q' =>
      have hne : s.dropWhile (fun b => !needsUrlEncodeEscape b) ≠ [] := by
        rw [hq]
        exact cons_ne_nil b q'
      have h := head_dropWhile_not (fun b => !needsUrlEncodeEscape b) hne
      simp only [hq,head_cons,Bool.not_eq_false'] at h
      exact .inr ⟨b,q',rfl,h⟩

private theorem urlDecodeLoop_encoded (h : Ascii s) (rest result : List Byte)
    {fuel consumed max : Nat} (hmax : max = consumed + (encoded s).length)
    (hfuel : (encoded s).length < fuel) :
    urlDecodeLoop max fuel (encoded s ++ rest) consumed result = some (result ++ s) := by
  induction fuel generalizing s consumed result with
  | zero => exact absurd hfuel (Nat.not_lt_zero _)
  | succ fuel ih =>
    obtain ⟨p,q,rfl,hp,hq⟩ := encoded_split s
    have hnot : ∀ b ∈ p, b ∉ [percent] := by
      intro b hb hm
      have hb' := hp b hb
      rw [List.mem_singleton.mp hm] at hb'
      exact absurd hb' (by decide)
    rw [encoded_append,encoded_plain hp] at hmax hfuel ⊢
    rw [append_assoc]
    cases hq with
    | inl hq =>
      rw [hq,show encoded [] = [] from rfl,append_nil] at hmax
      rw [hq,show encoded [] = [] from rfl,nil_append,append_nil,urlDecodeLoop]
      split
      · next hnil => rw [(List.append_eq_nil_iff.mp hnil).1,append_nil]
      · dsimp only
        rw [strcspn_append hnot]
        generalize strcspn rest [percent] = k
        have hlen : (if max < p.length + k + consumed then max - consumed else p.length + k) =
            p.length := by
          split <;> omega
        rw [hlen,if_pos hmax.symm,take_left]
    | inr hq =>
      obtain ⟨b,q',rfl,hneed⟩ := hq
      have hb := h b (mem_append_right _ (mem_cons_self ..))
      have hq' : Ascii q' := fun c hc =>
        h c (mem_append_right _ (mem_cons_of_mem b hc))
      have hcode : encoded (b :: q') = percent :: hexDigit (b.toNat / 16) ::
          hexDigit (b.toNat % 16) :: encoded q' := by
        rw [encoded_cons,code,if_pos hneed]
        rfl
      rw [hcode,length_append,length_cons,length_cons,length_cons] at hmax hfuel
      have hclip : ¬max < p.length + consumed := by omega
      have hmore : ¬consumed + p.length = max := by omega
      have hmax' : max = consumed + p.length + 3 + (encoded q').length := by omega
      have hfuel' : (encoded q').length < fuel := by omega
      rw [hcode,cons_append,cons_append,cons_append,urlDecodeLoop,if_neg (by simp)]
      dsimp only
      rw [strcspn_append hnot,strcspn_stop (mem_singleton_self _),Nat.add_zero,
        if_neg hclip,if_neg hmore,drop_left,take_left]
      dsimp only
      rw [if_pos rfl,decodeEscape_code hb,bind_some,
        ih hq' _ hmax' hfuel',append_assoc,append_assoc]
      rfl

private theorem urlDecode_encoded (h : Ascii s) (rest : List Byte) :
    urlDecode (encoded s ++ rest) (encoded s).length = some s := by
  apply urlDecodeLoop_encoded h rest [] (Nat.zero_add _).symm
  rw [length_append]
  omega

structure Writable (e : StdString × StdString) : Prop where
  key_ne_nil : e.1.chars ≠ []
  key_c : e.1.c_str = e.1.chars
  value_c : e.2.c_str = e.2.chars
  key_ascii : Ascii e.1.chars
  value_ascii : Ascii e.2.chars

def pairText (e : StdString × StdString) : List Byte :=
  encoded e.1.chars ++ if e.2.chars = [] then [] else equals :: encoded e.2.chars

def moreText (es : List (StdString × StdString)) : List Byte :=
  es.flatMap fun e => ampersand :: pairText e

def paramsText : List (StdString × StdString) → List Byte
  | [] => []
  | e :: es => pairText e ++ moreText es

variable {e : StdString × StdString}

theorem pairText_ne_nil (h : Writable e) : pairText e ≠ [] :=
  append_ne_nil_of_left_ne_nil (mt encoded_eq_nil.mp h.key_ne_nil) _

theorem urlEncodeLoop_cons (h : Writable e)
    (es : List (StdString × StdString)) (result : List Byte) :
    urlEncodeLoop (e :: es) result =
      urlEncodeLoop es ((if result = [] then result else result ++ [ampersand]) ++ pairText e) := by
  rw [urlEncodeLoop,h.key_c,urlEncode_ascii h.key_ascii,bind_some,pairText]
  split
  · rw [append_nil]
  · rw [h.value_c,urlEncode_ascii h.value_ascii,bind_some,append_assoc,
      append_assoc]
    rfl

variable {es : List (StdString × StdString)}

private theorem urlEncodeLoop_more (h : ∀ e ∈ es, Writable e) {result : List Byte}
    (hr : result ≠ []) :
    urlEncodeLoop es result = some (result ++ moreText es) := by
  induction es generalizing result with
  | nil => rw [urlEncodeLoop,moreText,flatMap_nil,append_nil]
  | cons e es ih =>
    have hes := fun x hx => h x (mem_cons_of_mem e hx)
    have hne : (result ++ [ampersand]) ++ pairText e ≠ [] := by simp
    rw [urlEncodeLoop_cons (h e (mem_cons_self ..)),if_neg hr,ih hes hne]
    simp [moreText]

theorem urlEncodeParams_eq {m : Params} (h : ∀ e ∈ m.entries, Writable e) :
    urlEncodeParams m = some (paramsText m.entries) := by
  rw [urlEncodeParams]
  cases hm : m.entries with
  | nil => rfl
  | cons e es =>
    rw [hm] at h
    have he := h e (mem_cons_self ..)
    have hes := fun x hx => h x (mem_cons_of_mem e hx)
    rw [urlEncodeLoop_cons he,if_pos rfl,nil_append,urlEncodeLoop_more hes (pairText_ne_nil he)]
    rfl

theorem urlEncodeLoop_high
    (he : e ∈ es) (h : ¬Ascii e.1.c_str ∨ ¬Ascii e.2.c_str ∧ e.2.chars ≠ []) (result : List Byte) :
    urlEncodeLoop es result = none := by
  induction es generalizing result with
  | nil => exact absurd he not_mem_nil
  | cons x es ih =>
    rw [urlEncodeLoop]
    cases List.mem_cons.mp he with
    | inl heq =>
      rw [← heq]
      cases h with
      | inl h =>
        rw [urlEncode_high h]
        rfl
      | inr h =>
        cases urlEncode e.1.c_str with
        | none => rfl
        | some key =>
          rw [bind_some,if_neg h.2,urlEncode_high h.1]
          rfl
    | inr hm =>
      cases urlEncode x.1.c_str with
      | none => rfl
      | some key =>
        rw [bind_some]
        split
        · exact ih hm _
        · cases urlEncode x.2.c_str with
          | none => rfl
          | some value => exact ih hm _

private theorem pair_end {stop : List Byte} (h : ampersand ∈ stop) :
    strcspn (moreText es) stop = 0 := by
  cases es with
  | nil => rfl
  | cons e es => exact strcspn_stop h _

private theorem encoded_not_stop (h : Ascii s) :
    ∀ b ∈ encoded s, b ∉ [equals,ampersand,semicolon] := by
  intro b hb hm
  have hstops : ∀ c ∈ [equals,ampersand,semicolon],
      needsUrlEncodeEscape c = true ∧ c ≠ percent := by decide +kernel
  have hneed := hstops b hm
  exact not_mem_encoded h hneed.1 hneed.2 hb

private theorem skip_separators (h : Writable e) (sep more : List Byte)
    (hsep : ∀ b ∈ sep, b = ampersand) :
    (sep ++ (pairText e ++ more)).dropWhile (fun b => b == semicolon || b == ampersand) =
      pairText e ++ more := by
  have hskip : ∀ b ∈ sep, (b == semicolon || b == ampersand) = true := by
    intro b hb
    rw [hsep b hb]
    rfl
  rw [dropWhile_append_of_pos hskip]
  cases hk : encoded e.1.chars with
  | nil => exact absurd (encoded_eq_nil.mp hk) h.key_ne_nil
  | cons c cs =>
    have hnot := encoded_not_stop h.key_ascii c (by rw [hk]; exact mem_cons_self ..)
    have hc : (c == semicolon || c == ampersand) = false := by
      rw [Bool.or_eq_false_iff,beq_eq_false_iff_ne,beq_eq_false_iff_ne]
      constructor
      · intro he
        rw [he] at hnot
        exact hnot (by decide)
      · intro he
        rw [he] at hnot
        exact hnot (by decide)
    rw [pairText,hk,cons_append,cons_append,dropWhile_cons_of_neg]
    rw [hc]
    exact Bool.false_ne_true

private theorem parseLoop_pair (h : Writable e) (sep : List Byte)
    (hsep : ∀ b ∈ sep, b = ampersand) (es : List (StdString × StdString)) (fuel : Nat)
    (params : Params) :
    parseLoop (fuel+1) (sep ++ (pairText e ++ moreText es)) params =
      parseLoop fuel (moreText es) (params.insert e.1 e.2) := by
  have hne : pairText e ++ moreText es ≠ [] := by
    intro hnil
    exact pairText_ne_nil h (List.append_eq_nil_iff.mp hnil).1
  have hkey : (encoded e.1.chars).length ≠ 0 := by
    intro hlen
    exact h.key_ne_nil (encoded_eq_nil.mp (List.length_eq_zero_iff.mp hlen))
  have hvalue : ∀ b ∈ encoded e.2.chars, b ∉ [ampersand,semicolon] := by
    intro b hb hm
    exact encoded_not_stop h.value_ascii b hb (mem_cons_of_mem equals hm)
  rw [parseLoop,skip_separators h sep _ hsep]
  dsimp only
  rw [if_neg hne,pairText]
  by_cases hv : e.2.chars = []
  · have hend : strcspn (moreText es) [equals,ampersand,semicolon] = 0 := pair_end (by decide)
    have hempty : (⟨[]⟩ : StdString) = e.2 := by rw [← hv]
    rw [if_pos hv,append_nil,strcspn_append (encoded_not_stop h.key_ascii),hend,Nat.add_zero,
      if_neg hkey,urlDecode_encoded h.key_ascii,drop_left]
    dsimp only
    rw [hempty]
    cases es with
    | nil => rfl
    | cons x es =>
      rw [moreText,flatMap_cons,cons_append]
      exact if_neg (by decide)
  · have hend : strcspn (moreText es) [ampersand,semicolon] = 0 := pair_end (by decide)
    rw [if_neg hv,append_assoc,cons_append,
      strcspn_append (encoded_not_stop h.key_ascii),
      strcspn_stop (b := equals) (by decide),Nat.add_zero,if_neg hkey,
      urlDecode_encoded h.key_ascii,drop_left]
    dsimp only
    rw [if_pos rfl,strcspn_append hvalue,hend,Nat.add_zero,urlDecode_encoded h.value_ascii,
      drop_left]

private theorem parseLoop_more (h : ∀ e ∈ es, Writable e)
    {fuel : Nat} (hfuel : (moreText es).length < fuel) (params : Params) :
    parseLoop fuel (moreText es) params = (true,params.insertAll es) := by
  induction es generalizing fuel params with
  | nil =>
    cases fuel with
    | zero => exact absurd hfuel (Nat.not_lt_zero _)
    | succ fuel => rfl
  | cons e es ih =>
    have he := h e (mem_cons_self ..)
    have hes := fun x hx => h x (mem_cons_of_mem e hx)
    have htext : moreText (e :: es) = [ampersand] ++ (pairText e ++ moreText es) := rfl
    rw [htext,length_append,length_append,length_singleton] at hfuel
    cases fuel with
    | zero => exact absurd hfuel (Nat.not_lt_zero _)
    | succ fuel =>
      rw [htext,parseLoop_pair he [ampersand] (fun b hb => List.mem_singleton.mp hb),
        ih hes (by omega)]
      rfl

theorem parseUrlEncodedParams_paramsText {m : Params} (h : ∀ e ∈ m.entries, Writable e) :
    parseUrlEncodedParams (paramsText m.entries) .empty = (true,m) := by
  have hall : parseUrlEncodedParams (paramsText m.entries) .empty =
      (true,OrderedMap.empty.insertAll m.entries) := by
    rw [parseUrlEncodedParams]
    cases hm : m.entries with
    | nil => rfl
    | cons e es =>
      rw [hm] at h
      have he := h e (mem_cons_self ..)
      have hes := fun x hx => h x (mem_cons_of_mem e hx)
      have hpos : 0 < (pairText e).length := List.length_pos_iff.mpr (pairText_ne_nil he)
      have hstep := parseLoop_pair he [] (fun b hb => absurd hb not_mem_nil) es
        (paramsText (e :: es)).length .empty
      rw [nil_append] at hstep
      rw [paramsText] at hstep ⊢
      rw [hstep,parseLoop_more hes]
      · rfl
      · rw [length_append]
        omega
  rw [hall,OrderedMap.insertAll_self]

end Condor.Url
