import Condor.Utils.CString

/-!
# Job ids and the keys of the job queue

An ad of the job queue is kept under a text made from a cluster and a proc number. The texts are
read back, so that the queue can be described by the ids.
-/

namespace Condor.Schedd

open List Option

/-- `PROC_ID`. Proc -1 stands for the ad of the cluster itself. -/
structure ProcId where
  cluster : Int
  proc : Int
deriving DecidableEq, Repr

def zero : CChar := ⟨48,by decide⟩

def procIdToStr (id : ProcId) : CString :=
  if id.proc = -1 then zero :: decimalInt id.cluster ++ dot :: decimalInt (-1)
  else decimalInt id.cluster ++ dot :: decimalInt id.proc

def splitDot (s : CString) : Option (CString × CString) :=
  match s.dropWhile (· ≠ dot) with
  | [] => none
  | _ :: rest => some (s.takeWhile (· ≠ dot),rest)

def strToProcId (s : CString) : Option ProcId :=
  let s := if s.head? = some zero then s.tail else s
  (splitDot s).map fun p => ⟨atoi (p.1 ++ dot :: p.2),atoi p.2⟩

theorem splitDot_append {s : CString} (hs : ∀ c ∈ s, c ≠ dot) (t : CString) :
    splitDot (s ++ dot :: t) = some (s,t) := by
  have hs' : ∀ c ∈ s, decide (c ≠ dot) = true := fun c hc => decide_eq_true (hs c hc)
  rw [splitDot,dropWhile_append_of_pos hs',takeWhile_append_of_pos hs']
  simp

private theorem decimalInt_zero {n : Int} {t : CString}
    (h : (decimalInt n ++ t).head? = some zero) :
    n = 0 ∧ (decimalInt n ++ t).tail = t := by
  rw [decimalInt] at h ⊢
  by_cases hneg : n < 0
  · rw [if_pos hneg] at h
    exact absurd h (by simp [minus,zero])
  · rw [if_neg hneg] at h ⊢
    by_cases hn : n.natAbs = 0
    · refine ⟨by omega,?_⟩
      rw [hn,decimal,if_pos rfl]
      rfl
    · -- the first digit of another number is not a zero
      rw [decimal,if_neg hn] at h
      have hne : Nat.digits 10 n.natAbs ≠ [] := Nat.digits_ne_nil_iff_ne_zero.mpr hn
      have hlast := Nat.getLast_digit_ne_zero 10 hn
      have hlt := Nat.digits_lt_base (by decide : 1 < 10) (getLast_mem hne)
      have hd : digitChar ((Nat.digits 10 n.natAbs).getLast hne) = zero := by
        rw [← dropLast_append_getLast hne,reverse_append] at h
        simpa using h
      have hval := congrArg (fun c : CChar => c.val.toNat) hd
      simp only [digitChar,zero,UInt8.toNat_ofNat'] at hval
      have h48 : (48 : UInt8).toNat = 48 := rfl
      omega

private theorem atoi_dot (t : CString) : atoi (dot :: t) = 0 := by
  have hscan : scanDecimal (bytes (dot :: t)) = none := by simp [scanDecimal,dot,isspace,isdigit]
  rw [atoi,atol,hscan]
  decide

private theorem strToProcId_procIdToStr {id : ProcId} (hc : IsInt id.cluster) (hp : IsInt id.proc) :
    strToProcId (procIdToStr id) = some id := by
  have hdot : ∀ t : CString, (bytes (dot :: t)).takeWhile isdigit = [] := by
    intro t
    have h46 : isdigit dot.val = false := by decide
    rw [bytes_cons,takeWhile_cons,if_neg (by simp [h46])]
  have hatoi : ∀ n, IsInt n → atoi (decimalInt n) = n := by
    intro n hn
    have h := atoi_decimalInt (t := []) hn rfl
    rwa [append_nil] at h
  have hread : ∀ p, IsInt p → (splitDot (decimalInt id.cluster ++ dot :: decimalInt p)).map
      (fun p => (⟨atoi (p.1 ++ dot :: p.2),atoi p.2⟩ : ProcId)) = some ⟨id.cluster,p⟩ := by
    intro p hp
    rw [splitDot_append (decimalInt_ne_dot _),map_some,atoi_decimalInt hc (hdot _),
      hatoi p hp]
  rw [procIdToStr,strToProcId]
  split
  · next hproc =>
    rw [cons_append,head?_cons,if_pos rfl,tail_cons,hread (-1) (by rw [IsInt]; norm_num)]
    exact congrArg some (by rw [← hproc])
  · split
    · next hzero =>
      obtain ⟨hz,htail⟩ := decimalInt_zero (t := dot :: decimalInt id.proc) hzero
      rw [htail,show dot :: decimalInt id.proc = [] ++ dot :: decimalInt id.proc from rfl,
        splitDot_append (by simp),map_some,nil_append,hatoi id.proc hp,
        atoi_dot]
      exact congrArg some (by rw [← hz])
    · exact hread id.proc hp

/-- The ads of jobs: those of clusters, of the header and of a cluster 0 are passed over. -/
def ProcId.isJob (id : ProcId) : Bool := id.cluster != 0 && id.proc != -1

private theorem head_procIdToStr (id : ProcId) :
    (procIdToStr id).head? = some zero ↔ id.isJob = false := by
  rw [procIdToStr,ProcId.isJob]
  by_cases hp : id.proc = -1
  · simp [hp]
  · rw [if_neg hp]
    have hb : (id.proc != -1) = true := by simpa using hp
    rw [hb,Bool.and_true,bne_eq_false_iff_eq]
    refine ⟨fun h => (decimalInt_zero h).1,fun h => ?_⟩
    rw [h]
    rfl

/-- The keys of different ids differ and are read back, and those of jobs are told by their first
character. -/
theorem procIdToStr_keys :
    (∀ id : ProcId, IsInt id.cluster → IsInt id.proc → strToProcId (procIdToStr id) = some id) ∧
    (∀ id id' : ProcId, IsInt id.cluster → IsInt id.proc → IsInt id'.cluster → IsInt id'.proc →
      procIdToStr id = procIdToStr id' → id = id') ∧
    ∀ id : ProcId, (procIdToStr id).head? = some zero ↔ id.isJob = false := by
  refine ⟨fun _ => strToProcId_procIdToStr,fun id id' hc hp hc' hp' h => ?_,head_procIdToStr⟩
  have hr := strToProcId_procIdToStr hc hp
  rw [h,strToProcId_procIdToStr hc' hp'] at hr
  exact (some.inj hr).symm

end Condor.Schedd
