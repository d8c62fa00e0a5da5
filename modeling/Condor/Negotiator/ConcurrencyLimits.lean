import Mathlib.Algebra.Order.BigOperators.Group.List
import Condor.Negotiator.Accountant
import Condor.Schedd.AutoCluster

/-!
# Concurrency limits

A job names the limits it counts against and by how much.
-/

namespace Condor.Negotiator

open Lib Schedd List

def exponent : List Byte → Int
  | c :: s =>
    if c = 101 ∨ c = 69 then
      match s with
      | 45 :: s => -(digitsValue (s.takeWhile isdigit) : Int)
      | 43 :: s => digitsValue (s.takeWhile isdigit)
      | s => digitsValue (s.takeWhile isdigit)
    else 0
  | [] => 0

def unsignedDecimal (s : List Byte) : ℚ :=
  let whole := s.takeWhile isdigit
  match s.dropWhile isdigit with
  | 46 :: rest =>
    let frac := rest.takeWhile isdigit
    if whole ++ frac = [] then 0
    else (digitsValue (whole ++ frac) : ℚ) / 10 ^ frac.length *
      (10 : ℚ) ^ exponent (rest.dropWhile isdigit)
  | rest => if whole = [] then 0 else (digitsValue whole : ℚ) * (10 : ℚ) ^ exponent rest

/-- `strtod` of a decimal number. -/
def strtod (s : List Byte) : ℚ :=
  match s.dropWhile isspace with
  | 45 :: s => -unsignedDecimal s
  | 43 :: s => unsignedDecimal s
  | s => unsignedDecimal s

def colon : Byte := 58

/-- `ParseConcurrencyLimit`: the increment is 1 if it is missing or not positive. -/
def parseConcurrencyLimit (item : CString) : CString × ℚ :=
  let name := item.takeWhile fun c => c.val != colon
  let increment :=
    match item.dropWhile fun c => c.val != colon with
    | [] => 1
    | _ :: rest => strtod (bytes rest)
  (name,if increment ≤ 0 then 1 else increment)

private theorem parseConcurrencyLimit_pos (item : CString) : 0 <
    (parseConcurrencyLimit item).2 := by
  have hpos : ∀ q : ℚ, 0 < if q ≤ 0 then 1 else q := by
    intro q
    split
    · exact one_pos
    · next h => exact lt_of_not_ge h
  exact hpos _

def limitItems (limits : CString) : List (CString × ℚ) :=
  (StringList.ofString (some limits)).map parseConcurrencyLimit

def totalFor (items : List (CString × ℚ)) (name : CString) : ℚ :=
  (items.map fun i => if i.1 = name then i.2 else 0).sum

abbrev LimitTable := CString → Option ℚ

/-- `GetLimit`. -/
def getLimit (l : LimitTable) (name : CString) : ℚ := (l name).getD 0

/-- `IncrementLimit`, once the item is parsed. -/
def incrementLimit (l : LimitTable) (item : CString × ℚ) : LimitTable :=
  Function.update l item.1 (some (getLimit l item.1 + item.2))

/-- `IncrementLimits`. -/
def incrementLimits (l : LimitTable) (limits : CString) : LimitTable :=
  (limitItems limits).foldl incrementLimit l

/-- `ClearLimits`: every limit that is known is set to 0. -/
def clearLimits (l : LimitTable) : LimitTable := fun name => (l name).map fun _ => 0

structure PoolAd extends ResourceAd where
  concurrencyLimits : Option CString
  preemptingConcurrencyLimits : Option CString

/-- The limits that one machine counts against; those of a match that has not been claimed yet
are found in the log. -/
def poolLimits (cfg : Config) (s : Accountant) (ad : PoolAd) : List CString :=
  ad.concurrencyLimits.toList ++ ad.preemptingConcurrencyLimits.toList ++
    if ad.state = some .matched then
      [(getString cfg s.log (.resource (getResourceName ad.toResourceAd))
        .matchedConcurrencyLimits).getD []]
    else []

/-- `LoadLimits`. -/
def loadLimits (cfg : Config) (s : Accountant) (l : LimitTable) (pool : List PoolAd) :
    LimitTable :=
  (pool.flatMap (poolLimits cfg s)).foldl incrementLimits (clearLimits l)

def scopeOf (name : CString) : Option CString :=
  match name.reverse.dropWhile fun c => c != dot with
  | [] => none
  | _ :: rest => some rest.reverse

/-- `GetLimitMax`, where `paramDouble` looks a setting up, given its default. -/
def getLimitMax (paramDouble : CString → ℚ → ℚ) (name : CString) : ℚ :=
  let default := paramDouble (cstr "CONCURRENCY_LIMIT_DEFAULT") 2308032
  let default :=
    match scopeOf name with
    | none => default
    | some scope => paramDouble (cstr "CONCURRENCY_LIMIT_DEFAULT_" ++ scope) default
  paramDouble (name ++ cstr "_LIMIT") default

/-- The check of `matchmakingAlgorithm`: none where a count is below 0, else whether every item
fits. -/
def checkItems (paramDouble : CString → ℚ → ℚ) (l : LimitTable) :
    List (CString × ℚ) → Option Bool
  | [] => some true
  | item :: items =>
    if getLimit l item.1 < 0 then none
    else if getLimitMax paramDouble item.1 < getLimit l item.1 + item.2 then some false
    else checkItems paramDouble l items

private theorem tolower_ne_zero (c : CChar) : tolower c.val ≠ 0 := by
  rw [tolower]
  split
  · next h =>
    simp only [Bool.and_eq_true,decide_eq_true_eq,UInt8.le_iff_toNat_le] at h
    intro h0
    have hsum := congrArg UInt8.toNat h0
    rw [UInt8.toNat_add] at hsum
    have h65 : (65 : UInt8).toNat = 65 := rfl
    have h90 : (90 : UInt8).toNat = 90 := rfl
    have h32 : (32 : UInt8).toNat = 32 := rfl
    have hz : (0 : UInt8).toNat = 0 := rfl
    omega
  · exact c.property

def lowerCase (s : CString) : CString := s.map fun c => ⟨tolower c.val,tolower_ne_zero c⟩

/-- A request with what the rest of the cycle makes of it: the offer, whether the protocol succeeds,
and the time. -/
structure LimitRequest where
  customerName : CString
  concurrencyLimits : Option CString
  offer : Option ResourceAd
  succeeds : Bool
  now : Int

def LimitRequest.limits (r : LimitRequest) : CString := (r.concurrencyLimits.map lowerCase).getD []

structure LimitCycle where
  accountant : Accountant
  limits : LimitTable
  accepted : List CString

namespace LimitCycle

variable (cfg : Config) (paramDouble : CString → ℚ → ℚ)

def alreadyMatched (s : LimitCycle) (customerName : CString) (ad : ResourceAd) : Bool :=
  getString cfg s.accountant.log (.resource (getResourceName ad)) .remoteUser = some customerName

/-- `AddMatch`, which returns at once where there is the match already. -/
def addMatch (s : LimitCycle) (r : LimitRequest) (offer : ResourceAd) : LimitCycle :=
  let offer := { offer with matchedConcurrencyLimits := r.concurrencyLimits.map lowerCase }
  { accountant := s.accountant.addMatch cfg r.customerName offer r.now
    limits :=
      if s.alreadyMatched cfg r.customerName offer then s.limits
      else incrementLimits s.limits r.limits
    accepted := r.limits :: s.accepted }

def request (s : LimitCycle) (r : LimitRequest) : Option LimitCycle :=
  (checkItems paramDouble s.limits (limitItems r.limits)).map fun fits =>
    match r.offer with
    | none => s
    | some offer => if fits && r.succeeds then s.addMatch cfg r offer else s

def start (s : Accountant) (l : LimitTable) (pool : List PoolAd) : LimitCycle where
  accountant := s
  limits := loadLimits cfg s l pool
  accepted := []

end LimitCycle

theorem totalFor_cons (item : CString × ℚ) (items : List (CString × ℚ)) (name : CString) :
    totalFor (item :: items) name = (if item.1 =
    name then item.2 else 0) + totalFor items name := by
  rw [totalFor,totalFor,map_cons,sum_cons]

private theorem limitItems_pos {limits : CString} {i : CString × ℚ} (h : i ∈ limitItems limits) :
    0 < i.2 := by
  obtain ⟨item,-,rfl⟩ := List.mem_map.mp h
  exact parseConcurrencyLimit_pos item

private theorem totalFor_nonneg (limits name : CString) : 0 ≤ totalFor
    (limitItems limits) name := by
  apply sum_nonneg
  intro x hx
  obtain ⟨i,hi,rfl⟩ := List.mem_map.mp hx
  split
  · exact (limitItems_pos hi).le
  · exact le_refl _

private theorem getLimit_incrementLimit (l : LimitTable) (item : CString × ℚ) (name : CString) :
    getLimit (incrementLimit l item) name =
      getLimit l name + if item.1 = name then item.2 else 0 := by
  rw [getLimit,incrementLimit,Function.update_apply]
  by_cases h : item.1 = name
  · subst h
    rw [if_pos rfl,if_pos rfl,Option.getD_some]
  · rw [if_neg fun he => h he.symm,if_neg h,add_zero]
    rfl

private theorem getLimit_foldl (items : List (CString × ℚ)) (l : LimitTable) (name : CString) :
    getLimit (items.foldl incrementLimit l) name = getLimit l name + totalFor items name := by
  induction items generalizing l with
  | nil => simp [totalFor]
  | cons item items ih =>
    rw [foldl_cons,ih,getLimit_incrementLimit,totalFor_cons]
    ring

private theorem getLimit_incrementLimits (l : LimitTable) (limits name : CString) :
    getLimit (incrementLimits l limits) name =
      getLimit l name + totalFor (limitItems limits) name :=
  getLimit_foldl _ l name

private theorem getLimit_loadLimits_nonneg (cfg : Config) (s : Accountant) (l : LimitTable)
    (pool : List PoolAd) (name : CString) : 0 ≤ getLimit (loadLimits cfg s l pool) name := by
  have hfold : ∀ (lists : List CString) (l : LimitTable), (∀ n, 0 ≤ getLimit l n) →
      ∀ n, 0 ≤ getLimit (lists.foldl incrementLimits l) n := by
    intro lists
    induction lists with
    | nil => exact fun l hl => hl
    | cons limits lists ih =>
      intro l hl
      rw [foldl_cons]
      apply ih
      intro n
      rw [getLimit_incrementLimits]
      have htotal := totalFor_nonneg limits n
      have hln := hl n
      linarith
  apply hfold
  intro n
  rw [getLimit,clearLimits]
  cases l n with
  | none | some => exact le_refl _

private theorem checkItems_true {paramDouble : CString → ℚ → ℚ} {l : LimitTable}
    {items : List (CString × ℚ)} (h : checkItems paramDouble l items = some true) :
    ∀ i ∈ items, getLimit l i.1 + i.2 ≤ getLimitMax paramDouble i.1 := by
  induction items with
  | nil => simp
  | cons item items ih =>
    rw [checkItems] at h
    split at h
    · simp at h
    · split at h
      · simp at h
      · next hfit =>
        intro i hi
        rcases List.mem_cons.mp hi with rfl | hi
        · exact le_of_not_gt hfit
        · exact ih h i hi

private theorem checkItems_isSome (paramDouble : CString → ℚ → ℚ) {l : LimitTable}
    (hl : ∀ n, 0 ≤ getLimit l n) (items : List (CString × ℚ)) :
    ∃ fits, checkItems paramDouble l items = some fits := by
  induction items with
  | nil => exact ⟨true,rfl⟩
  | cons item items ih =>
    rw [checkItems,if_neg (not_lt.mpr (hl item.1))]
    split
    · exact ⟨false,rfl⟩
    · exact ih

private theorem totalFor_of_nodup {items : List (CString × ℚ)} (h : (items.map Prod.fst).Nodup)
    (name : CString) :
    totalFor items name = 0 ∨ ∃ i ∈ items, i.1 = name ∧ totalFor items name = i.2 := by
  induction items with
  | nil => exact Or.inl rfl
  | cons item items ih =>
    rw [map_cons,nodup_cons] at h
    rw [totalFor_cons]
    by_cases hn : item.1 = name
    · have hzero : totalFor items name = 0 := by
        rcases ih h.2 with h0 | ⟨i,hi,hin,-⟩
        · exact h0
        · exact absurd (mem_map_of_mem (f := Prod.fst) hi) (hin.trans hn.symm ▸ h.1)
      exact Or.inr ⟨item,mem_cons_self,hn,by rw [if_pos hn,hzero,add_zero]⟩
    · rw [if_neg hn,zero_add]
      exact (ih h.2).imp id fun ⟨i,hi,hin,ht⟩ => ⟨i,mem_cons_of_mem _ hi,hin,ht⟩

namespace LimitCycle

variable {cfg : Config} {paramDouble : CString → ℚ → ℚ}

/-- What the accepted jobs take of a limit. -/
def acceptedTotal (s : LimitCycle) (name : CString) : ℚ :=
  (s.accepted.map fun limits => totalFor (limitItems limits) name).sum

structure Exact (paramDouble : CString → ℚ → ℚ) (loaded : LimitTable) (s : LimitCycle) : Prop where
  nonneg : ∀ name, 0 ≤ getLimit s.limits name
  count : ∀ name, getLimit s.limits name = getLimit loaded name + s.acceptedTotal name
  bounded : ∀ name,
    getLimit s.limits name ≤ max (getLimit loaded name) (getLimitMax paramDouble name)

/-- A request that is accepted names no limit twice, and if it has limits, the accountant does
not have its match yet. -/
def Plain (cfg : Config) (paramDouble : CString → ℚ → ℚ) (s : LimitCycle) (r : LimitRequest) :
    Prop :=
  ∀ offer ∈ r.offer, r.succeeds = true →
    checkItems paramDouble s.limits (limitItems r.limits) = some true →
    ((limitItems r.limits).map Prod.fst).Nodup ∧
      (limitItems r.limits = [] ∨ s.alreadyMatched cfg r.customerName offer = false)

instance (s : LimitCycle) (r : LimitRequest) : Decidable (Plain cfg paramDouble s r) :=
  inferInstanceAs (Decidable (∀ offer ∈ r.offer, r.succeeds = true →
    checkItems paramDouble s.limits (limitItems r.limits) = some true →
    ((limitItems r.limits).map Prod.fst).Nodup ∧
      (limitItems r.limits = [] ∨ s.alreadyMatched cfg r.customerName offer = false)))

private theorem getLimit_addMatch {s : LimitCycle} {r : LimitRequest} {offer : ResourceAd}
    (h : limitItems r.limits = [] ∨ s.alreadyMatched cfg r.customerName offer = false)
    (name : CString) :
    getLimit (s.addMatch cfg r offer).limits name =
      getLimit s.limits name + totalFor (limitItems r.limits) name := by
  rw [addMatch]
  dsimp only
  split
  · next hknown =>
    have hnil := h.resolve_right fun hno => absurd (hknown.symm.trans hno) (by decide)
    rw [hnil]
    simp [totalFor]
  · exact getLimit_incrementLimits _ _ name

theorem Exact.request {loaded : LimitTable} {s : LimitCycle} {r : LimitRequest}
    (h : Exact paramDouble loaded s) (hr : Plain cfg paramDouble s r) :
    ∃ s', s.request cfg paramDouble r = some s' ∧ Exact paramDouble loaded s' := by
  obtain ⟨fits,hfits⟩ := checkItems_isSome paramDouble h.nonneg (limitItems r.limits)
  rw [LimitCycle.request,hfits,Option.map_some]
  refine ⟨_,rfl,?_⟩
  cases hoffer : r.offer with
  | none => exact h
  | some offer =>
    dsimp only
    split
    · next hacc =>
      rw [Bool.and_eq_true] at hacc
      rw [hacc.1] at hfits
      obtain ⟨hnodup,hknown⟩ := hr offer hoffer hacc.2 hfits
      have hlimit := getLimit_addMatch hknown
      refine ⟨fun name => ?_,fun name => ?_,fun name => ?_⟩
      · rw [hlimit]
        have h1 := h.nonneg name
        have h2 := totalFor_nonneg r.limits name
        linarith
      · rw [hlimit,h.count]
        change _ = _ + (totalFor (limitItems r.limits) name + s.acceptedTotal name)
        ring
      · rw [hlimit]
        rcases totalFor_of_nodup hnodup name with h0 | ⟨i,hi,rfl,ht⟩
        · rw [h0,add_zero]
          exact h.bounded name
        · rw [ht]
          exact le_max_of_le_right (checkItems_true hfits i hi)
    · exact h

/-- No count falls below 0, every count is what was loaded together with what was accepted, and new
matches exceed no limit. -/
theorem limits_respected (cfg : Config) (paramDouble : CString → ℚ → ℚ) (a : Accountant)
    (before : LimitTable) (pool : List PoolAd) {rs : List LimitRequest}
    (hok : Along (LimitCycle.request cfg paramDouble) (Plain cfg paramDouble)
      (start cfg a before pool) rs) :
    ∃ s, run (LimitCycle.request cfg paramDouble) (start cfg a before pool) rs = some s ∧
      ∀ name, getLimit s.limits name =
          getLimit (loadLimits cfg a before pool) name + s.acceptedTotal name ∧
        getLimit s.limits name ≤
          max (getLimit (loadLimits cfg a before pool) name) (getLimitMax paramDouble name) := by
  have h0 : Exact paramDouble (loadLimits cfg a before pool) (start cfg a before pool) := by
    refine ⟨getLimit_loadLimits_nonneg cfg a before pool,fun name => ?_,
      fun name => le_max_left _ _⟩
    change _ = _ + (0 : ℚ)
    rw [add_zero]
    rfl
  obtain ⟨s,hs,hexact⟩ := run_total (Exact paramDouble (loadLimits cfg a before pool))
    (fun s r hs hr => hs.request hr) hok h0
  exact ⟨s,hs,fun name => ⟨hexact.count name,hexact.bounded name⟩⟩

/-! A pool in which one limit is set. -/

def plainConfig : Config where
  root := .node (cstr "<none>") []
  useSlotWeights := false
  discountSuspendedResources := false
  stringValue := some

/-- At most three of `x`. -/
def threeOfX (name : CString) (default : ℚ) : ℚ := if name = cstr "x_LIMIT" then 3 else default

def machine (name : CString) : ResourceAd where
  name := name
  startdIpAddr := some (cstr "<10.0.0.1:9618>")
  slotWeight := none
  matchedConcurrencyLimits := none
  state := none
  accountingGroup := none
  remoteUser := none
  activity := none

def matching (limits name : CString) : LimitRequest where
  customerName := cstr "alice"
  concurrencyLimits := some limits
  offer := some (machine name)
  succeeds := true
  now := 1000

theorem limits_respected_twoRequests :
    ∃ s, run (LimitCycle.request plainConfig threeOfX)
        (start plainConfig (Accountant.start plainConfig 0) (fun _ => none) [])
        [matching (cstr "X:2,y") (cstr "slot1"),matching (cstr "x:2") (cstr "slot2")] = some s ∧
      s.accepted = [cstr "x:2,y"] ∧ getLimit s.limits (cstr "x") ≤ 3 := by
  have hok : Along (LimitCycle.request plainConfig threeOfX) (Plain plainConfig threeOfX)
      (start plainConfig (Accountant.start plainConfig 0) (fun _ => none) [])
      [matching (cstr "X:2,y") (cstr "slot1"),matching (cstr "x:2") (cstr "slot2")] := by
    decide +kernel
  obtain ⟨s,hs,hall⟩ := limits_respected plainConfig threeOfX (Accountant.start plainConfig 0)
    (fun _ => none) [] hok
  have hacc : (run (LimitCycle.request plainConfig threeOfX)
      (start plainConfig (Accountant.start plainConfig 0) (fun _ => none) [])
      [matching (cstr "X:2,y") (cstr "slot1"),matching (cstr "x:2") (cstr "slot2")]).map
      LimitCycle.accepted = some [cstr "x:2,y"] := by
    decide +kernel
  rw [hs,Option.map_some,Option.some.injEq] at hacc
  have hmax : max (getLimit (loadLimits plainConfig (Accountant.start plainConfig 0)
      (fun _ => none) []) (cstr "x")) (getLimitMax threeOfX (cstr "x")) = 3 := by
    decide
  exact ⟨s,hs,hacc,hmax ▸ (hall (cstr "x")).2⟩

/-- A limit that is named twice in one list is exceeded. -/
theorem limits_exceeded :
    (run (LimitCycle.request plainConfig threeOfX)
      (start plainConfig (Accountant.start plainConfig 0) (fun _ => none) [])
      [matching (cstr "x:2,x:2") (cstr "slot1")]).map (fun s => getLimit s.limits (cstr "x")) =
      some 4 ∧
    max (getLimit (loadLimits plainConfig (Accountant.start plainConfig 0) (fun _ => none) [])
      (cstr "x")) (getLimitMax threeOfX (cstr "x")) = 3 := by
  constructor <;> decide +kernel

end LimitCycle

end Condor.Negotiator
