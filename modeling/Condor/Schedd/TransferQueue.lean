import Condor.Lib.Run
import Condor.Utils.CString

/-!
# The transfer queue

Clients that want to send or receive files wait in one queue for both directions.
-/

namespace Condor.Schedd

open List

/-- `TransferQueueRequest`, where a number stands for the socket. -/
structure TransferQueueRequest where
  sock : Nat
  downloading : Bool
  gaveGoAhead : Bool := false
  maxQueueAge : Int
  timeBorn : Int
  timeGoAhead : Int := 0

/-- The counters of one direction: `m_downloading`, `m_waiting_to_download` and
`m_download_wait_time`, or the same for uploads. -/
structure Progress where
  inProgress : Int := 0
  waiting : Int := 0
  waitTime : Int := 0

/-- `TransferQueueManager`, with the limit and the counters of downloads at `true`. -/
structure TransferQueueManager where
  xferQueue : List TransferQueueRequest := []
  max : Bool → Int
  /-- `m_check_queue_timer` is set. -/
  checkQueueTimer : Bool := false
  progress : Bool → Progress := fun _ => {}

/-- What comes of the visit to a request: whether the go-ahead can be sent, and the reading of the
clock. -/
structure Visit where
  sent : Bool
  now : Int

inductive DropReason
  | disconnected
  | failedSend
  /-- At the front of the queue but still not allowed. -/
  | forced
  | overAge (now : Int)
  deriving DecidableEq

structure Dropped where
  request : TransferQueueRequest
  reason : DropReason

namespace TransferQueueManager

variable (max : Bool → Int)

def Allowed (p : Bool → Progress) (downloading : Bool) : Prop :=
  (p downloading).inProgress < max downloading ∨ max downloading ≤ 0
deriving Decidable

def countGranted (p : Bool → Progress) (downloading : Bool) : Bool → Progress := fun d =>
  if d = downloading then { p d with inProgress := (p d).inProgress + 1 } else p d

def countWaiting (p : Bool → Progress) (downloading : Bool) (age : Int) : Bool → Progress :=
  fun d =>
  if d = downloading then
    { p d with
      waiting := (p d).waiting + 1
      waitTime := if (p d).waitTime < age then age else (p d).waitTime }
  else p d

/-- The first loop of CheckTransferQueue: the queue that is left, the counters, whether a client
waits, and what is dropped. -/
def scan (visit : Nat → Visit) : Nat → (Bool → Progress) → List TransferQueueRequest →
    List TransferQueueRequest × (Bool → Progress) × Bool × List Dropped
  | _, p, [] => ([],p,false,[])
  | position, p, client :: rest =>
    let queuePosition := position + 1
    if client.gaveGoAhead then
      let (queue,p,waits,dropped) :=
        scan visit queuePosition (countGranted p client.downloading) rest
      (client :: queue,p,waits,dropped)
    else if Allowed max p client.downloading then
      if (visit queuePosition).sent then
        let granted :=
          { client with gaveGoAhead := true, timeGoAhead := (visit queuePosition).now }
        let (queue,p,waits,dropped) :=
          scan visit queuePosition (countGranted p client.downloading) rest
        (granted :: queue,p,waits,dropped)
      else
        let (queue,p,waits,dropped) := scan visit queuePosition p rest
        (queue,p,waits,⟨client,.failedSend⟩ :: dropped)
    else if queuePosition = 1 then
      let (queue,p,waits,dropped) := scan visit queuePosition p rest
      (queue,p,waits,⟨client,.forced⟩ :: dropped)
    else
      let age := toInt ((visit queuePosition).now - client.timeBorn)
      let (queue,p,_,dropped) :=
        scan visit queuePosition (countWaiting p client.downloading age) rest
      (client :: queue,p,true,dropped)

def OverAge (client : TransferQueueRequest) (now : Int) : Prop :=
  client.gaveGoAhead = true ∧ 0 < toInt client.maxQueueAge ∧
    toInt client.maxQueueAge < toInt (now - client.timeGoAhead)
deriving Decidable

def dropAncient (now : Nat → Int) : Nat → List TransferQueueRequest →
    List TransferQueueRequest × List Dropped
  | _, [] => ([],[])
  | position, client :: rest =>
    if OverAge client (now position) then (rest,[⟨client,.overAge (now position)⟩])
    else
      let (queue,dropped) := dropAncient now (position + 1) rest
      (client :: queue,dropped)

inductive Action
  /-- A new client, which the daemon may reject because it has too many sockets or cannot register
  this one. -/
  | addRequest (sock : Nat) (downloading : Bool) (maxQueueAge timeBorn : Int) (accepted : Bool)
  | handleDisconnect (sock : Nat)
  /-- What comes of the visits of the first loop, and the readings of the clock in the second. -/
  | checkTransferQueue (visit : Nat → Visit) (now : Nat → Int)

def addRequest (m : TransferQueueManager) (client : TransferQueueRequest) (accepted : Bool) :
    TransferQueueManager :=
  if accepted then
    { m with xferQueue := m.xferQueue ++ [client], checkQueueTimer := true }
  else m

def handleDisconnect (m : TransferQueueManager) (sock : Nat) :
    Option (TransferQueueManager × List Dropped) :=
  (m.xferQueue.find? (·.sock = sock)).map fun client =>
    ({ m with
        xferQueue := m.xferQueue.eraseP (·.sock = sock)
        checkQueueTimer := true },[⟨client,.disconnected⟩])

def checkTransferQueue (m : TransferQueueManager) (visit : Nat → Visit) (now : Nat → Int) :
    TransferQueueManager × List Dropped :=
  let (queue,progress,clientsWaiting,dropped) := scan m.max visit 0 (fun _ => {}) m.xferQueue
  let (queue,ancient) := if clientsWaiting then dropAncient now 0 queue else (queue,[])
  ({ m with
      xferQueue := queue
      checkQueueTimer := dropped ++ ancient ≠ []
      progress := progress },dropped ++ ancient)

def act (m : TransferQueueManager) : Action → Option (TransferQueueManager × List Dropped)
  | .addRequest sock downloading maxQueueAge timeBorn accepted =>
    some (m.addRequest ⟨sock,downloading,false,maxQueueAge,timeBorn,0⟩ accepted,[])
  | .handleDisconnect sock => m.handleDisconnect sock
  | .checkTransferQueue visit now => some (m.checkTransferQueue visit now)

def step (m : TransferQueueManager) (a : Action) : Option TransferQueueManager :=
  (m.act a).map Prod.fst

def count (queue : List TransferQueueRequest) (downloading granted : Bool) : Nat :=
  queue.countP fun r => r.downloading = downloading ∧ r.gaveGoAhead = granted

def GrantedFirst (queue : List TransferQueueRequest) : Prop :=
  queue.Pairwise fun r s => r.downloading = s.downloading → s.gaveGoAhead = true →
    r.gaveGoAhead = true

theorem count_cons (r : TransferQueueRequest) (queue : List TransferQueueRequest) (d g : Bool) :
    count (r :: queue) d g =
      count queue d g + if r.downloading = d ∧ r.gaveGoAhead = g then 1 else 0 := by
  simp [count,countP_cons]

private theorem GrantedFirst.granted_prefix {queue : List TransferQueueRequest}
    (h : GrantedFirst queue)
    (d : Bool) : queue.filter (fun r => r.downloading = d ∧ r.gaveGoAhead = true) <+:
      queue.filter (fun r => r.downloading = d) := by
  induction queue with
  | nil => exact prefix_refl _
  | cons r queue ih =>
    obtain ⟨hr,hq⟩ := List.pairwise_cons.mp h
    by_cases hd : r.downloading = d
    · by_cases hg : r.gaveGoAhead = true
      · simpa [hd,hg] using ih hq
      · have hnone : queue.filter (fun r => r.downloading = d ∧ r.gaveGoAhead = true) = [] := by
          apply List.filter_eq_nil_iff.mpr
          intro s hs hboth
          simp only [decide_eq_true_eq] at hboth
          exact hg (hr s hs (hd.trans hboth.1.symm) hboth.2)
        rw [filter_cons_of_neg (by simp [hg]),hnone]
        exact List.nil_prefix
    · simpa [hd] using ih hq

variable {max : Bool → Int} {visit : Nat → Visit} {q : List TransferQueueRequest}
  {p : Bool → Progress} {position : Nat}

def WithinLimit (max : Bool → Int) (granted : Bool → Int) : Prop :=
  ∀ d, 0 < max d → granted d ≤ max d

structure Scanned (max : Bool → Int) (visit : Nat → Visit) (position : Nat) (p : Bool → Progress)
    (q q' : List TransferQueueRequest) (p' : Bool → Progress) (es : List Dropped) : Prop where
  inProgress : ∀ d, (p' d).inProgress = (p d).inProgress + count q' d true
  waiting : ∀ d, (p' d).waiting = (p d).waiting + count q' d false
  grantedFirst : GrantedFirst q → GrantedFirst q'
  limit : GrantedFirst q → WithinLimit max (fun d => (p d).inProgress + count q d true) →
    WithinLimit max (fun d => (p' d).inProgress)
  /-- Where the limit is reached, no request gets the go-ahead. -/
  full : ∀ d, ¬Allowed max p d → count q d true = 0 → count q' d true = 0
  kept : (q'.map TransferQueueRequest.sock ++ es.map (·.request.sock)).Perm
    (q.map TransferQueueRequest.sock)
  dropped : ∀ e ∈ es, e.reason = .failedSend ∧
    ∃ k, q[k]? = some e.request ∧ (visit (position + k + 1)).sent = false

theorem count_eq_zero {d : Bool} : count q d true = 0 ↔
    ∀ r ∈ q, r.downloading = d → r.gaveGoAhead = false := by
  simp [count,countP_eq_zero]

variable {r : TransferQueueRequest}

private theorem count_of_waiting (h : GrantedFirst (r :: q))
    (hr : r.gaveGoAhead = false) : count q r.downloading true = 0 := by
  apply count_eq_zero.mpr
  intro s hs hd
  by_contra hg
  have := (List.pairwise_cons.mp h).1 s hs hd.symm (by simpa using hg)
  rw [hr] at this
  cases this

theorem grantedFirst_cons (h : GrantedFirst q)
    (hr : r.gaveGoAhead = true ∨ count q r.downloading true = 0) : GrantedFirst (r :: q) := by
  apply List.pairwise_cons.mpr
  refine ⟨fun s hs hd hg => ?_,h⟩
  rcases hr with hr | hr
  · exact hr
  · have := count_eq_zero.mp hr s hs hd.symm
    rw [hg] at this
    cases this

@[simp] theorem countGranted_inProgress (p : Bool → Progress) (d e : Bool) :
    (countGranted p d e).inProgress = (p e).inProgress + if e = d then 1 else 0 := by
  unfold countGranted
  split <;> simp

@[simp] theorem countGranted_waiting (p : Bool → Progress) (d e : Bool) :
    (countGranted p d e).waiting = (p e).waiting := by
  unfold countGranted
  split <;> rfl

@[simp] theorem countWaiting_inProgress (p : Bool → Progress) (d e : Bool) (age : Int) :
    (countWaiting p d age e).inProgress = (p e).inProgress := by
  unfold countWaiting
  split <;> rfl

@[simp] theorem countWaiting_waiting (p : Bool → Progress) (d e : Bool) (age : Int) :
    (countWaiting p d age e).waiting = (p e).waiting + if e = d then 1 else 0 := by
  unfold countWaiting
  split <;> simp

theorem Allowed.mono {p p' : Bool → Progress} {d : Bool} (h : Allowed max p' d)
    (hle : (p d).inProgress ≤ (p' d).inProgress) : Allowed max p d := by
  unfold Allowed at h ⊢
  omega

theorem dropped_cons {es : List Dropped} (r : TransferQueueRequest)
    (h : ∀ e ∈ es, e.reason = .failedSend ∧
      ∃ k, q[k]? = some e.request ∧ (visit (position + 1 + k + 1)).sent = false) :
    ∀ e ∈ es, e.reason = .failedSend ∧
      ∃ k, (r :: q)[k]? = some e.request ∧ (visit (position + k + 1)).sent = false := by
  intro e he
  obtain ⟨hreason,k,hk,hsent⟩ := h e he
  refine ⟨hreason,k + 1,hk,?_⟩
  rw [← hsent]
  congr 3
  omega

variable {q' : List TransferQueueRequest} {p' : Bool → Progress}

theorem Scanned.granted {r r' : TransferQueueRequest} {es : List Dropped}
    (h : Scanned max visit (position + 1) (countGranted p r.downloading) q q' p' es)
    (hsock : r'.sock = r.sock) (hd : r'.downloading = r.downloading) (hg : r'.gaveGoAhead = true)
    (hr : r.gaveGoAhead = true ∨ r.gaveGoAhead = false ∧ Allowed max p r.downloading) :
    Scanned max visit position p (r :: q) (r' :: q') p' es where
  inProgress d := by
    rw [h.inProgress,count_cons,hd,hg]
    simp only [countGranted_inProgress,and_true,eq_comm]
    split <;> omega
  waiting d := by
    rw [h.waiting,count_cons,hd,hg]
    simp
  grantedFirst hq := grantedFirst_cons (h.grantedFirst (List.pairwise_cons.mp hq).2) (.inl hg)
  limit hq hl := by
    apply h.limit (List.pairwise_cons.mp hq).2
    intro d hpos
    have hle := hl d hpos
    simp only [count_cons,countGranted_inProgress] at hle ⊢
    by_cases hrd : d = r.downloading
    · subst hrd
      rcases hr with hr | ⟨hr,hallowed⟩
      · simp only [hr,and_self,if_true] at hle ⊢
        omega
      · have hzero := count_of_waiting hq hr
        unfold Allowed at hallowed
        rw [if_pos rfl,hzero]
        omega
    · simp only [if_neg hrd]
      simp only [Ne.symm hrd,false_and,if_false] at hle
      omega
  full d hfull hzero := by
    rw [count_cons] at hzero ⊢
    have hne : ¬r.downloading = d := by
      rintro rfl
      rcases hr with hr | ⟨-,hallowed⟩
      · simp [hr] at hzero
      · exact hfull hallowed
    simp only [hd,hne,false_and,if_false,Nat.add_zero] at hzero ⊢
    apply h.full d _ hzero
    intro hallowed
    exact hfull (hallowed.mono (by simp; split <;> omega))
  kept := by
    rw [map_cons,map_cons,hsock,cons_append]
    exact h.kept.cons _
  dropped := dropped_cons r h.dropped

theorem Scanned.failed {es : List Dropped} (h : Scanned max visit (position + 1) p q q' p' es)
    (hr : r.gaveGoAhead = false) (hsent : (visit (position + 1)).sent = false) :
    Scanned max visit position p (r :: q) q' p' (⟨r,.failedSend⟩ :: es) where
  inProgress := h.inProgress
  waiting := h.waiting
  grantedFirst hq := h.grantedFirst (List.pairwise_cons.mp hq).2
  limit hq hl := by
    apply h.limit (List.pairwise_cons.mp hq).2
    intro d hpos
    have hle := hl d hpos
    simpa [count_cons,hr] using hle
  full d hfull hzero := by
    apply h.full d hfull
    simpa [count_cons,hr] using hzero
  kept := by
    rw [map_cons,map_cons]
    exact List.perm_middle.trans (h.kept.cons _)
  dropped e he := by
    rcases List.mem_cons.mp he with rfl | he
    · exact ⟨rfl,0,rfl,hsent⟩
    · exact dropped_cons r h.dropped e he

theorem Scanned.waits {es : List Dropped} {age : Int}
    (h : Scanned max visit (position + 1) (countWaiting p r.downloading age) q q' p' es)
    (hr : r.gaveGoAhead = false) (hfull : ¬Allowed max p r.downloading) :
    Scanned max visit position p (r :: q) (r :: q') p' es where
  inProgress d := by
    rw [h.inProgress,count_cons,hr]
    simp
  waiting d := by
    rw [h.waiting,count_cons,hr]
    simp only [countWaiting_waiting,and_true,eq_comm]
    split <;> omega
  grantedFirst hq := by
    apply grantedFirst_cons (h.grantedFirst (List.pairwise_cons.mp hq).2)
    right
    apply h.full _ _ (count_of_waiting hq hr)
    intro hallowed
    exact hfull (hallowed.mono (by simp))
  limit hq hl := by
    apply h.limit (List.pairwise_cons.mp hq).2
    intro d hpos
    have hle := hl d hpos
    simpa [count_cons,hr] using hle
  full d hnot hzero := by
    rw [count_cons] at hzero ⊢
    simp only [hr,Bool.false_eq_true,and_false,if_false,Nat.add_zero] at hzero ⊢
    apply h.full d _ hzero
    intro hallowed
    exact hnot (hallowed.mono (by simp))
  kept := by
    rw [map_cons,map_cons,cons_append]
    exact h.kept.cons _
  dropped := dropped_cons r h.dropped

private theorem scan_spec (max : Bool → Int) (visit : Nat → Visit) (q : List TransferQueueRequest)
    (hp : position = 0 → ∀ d, (p d).inProgress = 0) :
    Scanned max visit position p q (scan max visit position p q).1 (scan max visit position p q).2.1
      (scan max visit position p q).2.2.2 := by
  induction q generalizing position p with
  | nil =>
    refine ⟨?_,?_,fun h => h,?_,fun _ _ h => h,List.Perm.refl _,by simp [scan]⟩
    · simp [scan,count]
    · simp [scan,count]
    · simp [scan,count]
  | cons r q ih =>
    rw [scan]
    split
    next hg => exact (ih (by omega)).granted rfl rfl hg (.inl hg)
    next hg =>
      rw [Bool.not_eq_true] at hg
      split
      next hallowed =>
        split
        next hsent => exact (ih (by omega)).granted rfl rfl rfl (.inr ⟨hg,hallowed⟩)
        next hsent => exact (ih (by omega)).failed hg (by simpa using hsent)
      next hfull =>
        split
        next hone =>
          -- the first request of the queue is always allowed
          have := hp (by omega) r.downloading
          unfold Allowed at hfull
          omega
        next hone => exact (ih (by omega)).waits hg hfull

private theorem dropAncient_spec (now : Nat → Int) (position : Nat)
    (q : List TransferQueueRequest) :
    dropAncient now position q = (q,[]) ∨
      ∃ as client bs, q = as ++ client :: bs ∧ OverAge client (now (position + as.length)) ∧
        dropAncient now position q =
          (as ++ bs,[⟨client,.overAge (now (position + as.length))⟩]) := by
  induction q generalizing position with
  | nil => exact .inl rfl
  | cons r q ih =>
    rw [dropAncient]
    split
    next hover => exact .inr ⟨[],r,q,rfl,hover,rfl⟩
    next hover =>
      rcases ih (position + 1) with h | ⟨as,client,bs,hq,hclient,h⟩
      · left
        rw [h]
      · right
        have hlen : position + 1 + as.length = position + (r :: as).length := by
          simp only [length_cons]
          omega
        rw [hlen] at h hclient
        exact ⟨r :: as,client,bs,by rw [hq]; rfl,hclient,by rw [h]; rfl⟩

def socks (m : TransferQueueManager) : Action → List Nat
  | .addRequest sock _ _ _ true => m.xferQueue.map TransferQueueRequest.sock ++ [sock]
  | _ => m.xferQueue.map TransferQueueRequest.sock

def Justified (m : TransferQueueManager) (a : Action) (e : Dropped) : Prop :=
  match e.reason with
  | .disconnected => a = .handleDisconnect e.request.sock
  | .failedSend => ∃ visit now k, a = .checkTransferQueue visit now ∧
      m.xferQueue[k]? = some e.request ∧ (visit (k + 1)).sent = false
  | .forced => False
  | .overAge now => e.request.gaveGoAhead = true ∧ 0 < e.request.maxQueueAge ∧
      e.request.maxQueueAge < now - e.request.timeGoAhead

def DropReason.isOverAge : DropReason → Bool
  | .overAge _ => true
  | _ => false

def ancient (es : List Dropped) (d : Bool) : Nat :=
  es.countP fun e => e.request.downloading = d ∧ DropReason.isOverAge e.reason = true

/-- Each direction is served in order and within its limit, requests leave for a reason only, and a
pass counts them as they were before it dropped one for its age. -/
structure Fair (m : TransferQueueManager) (a : Action) (m' : TransferQueueManager)
    (es : List Dropped) : Prop where
  order : ∀ d, m'.xferQueue.filter (fun r => r.downloading = d ∧ r.gaveGoAhead = true) <+:
    m'.xferQueue.filter (fun r => r.downloading = d)
  limit : ∀ d, 0 < m'.max d → (count m'.xferQueue d true : Int) ≤ m'.max d
  max : m'.max = m.max
  kept : (m'.xferQueue.map TransferQueueRequest.sock ++ es.map (·.request.sock)).Perm (m.socks a)
  justified : ∀ e ∈ es, m.Justified a e
  inProgress : ∀ visit now, a = .checkTransferQueue visit now →
    ∀ d, (m'.progress d).inProgress = count m'.xferQueue d true + ancient es d
  waiting : ∀ visit now, a = .checkTransferQueue visit now →
    ∀ d, (m'.progress d).waiting = count m'.xferQueue d false

def StaysFair (m : TransferQueueManager) (a : Action) : Prop :=
  ∀ m' es, m.act a = some (m',es) → m.Fair a m' es

def AgesFit (m : TransferQueueManager) : Action → Prop
  | .checkTransferQueue visit now =>
    ∀ k r, (scan m.max visit 0 (fun _ => {}) m.xferQueue).1[k]? = some r → r.gaveGoAhead = true →
      toInt (now k - r.timeGoAhead) = now k - r.timeGoAhead ∧
        toInt r.maxQueueAge = r.maxQueueAge
  | _ => True

/-- Granted requests come first, and are no more than the limit. -/
structure Orderly (m : TransferQueueManager) : Prop where
  grantedFirst : GrantedFirst m.xferQueue
  limit : WithinLimit m.max fun d => count m.xferQueue d true

variable {m m' : TransferQueueManager} {a : Action} {es : List Dropped}

theorem Orderly.sublist (h : m.Orderly) (hsub : m'.xferQueue.Sublist m.xferQueue)
    (hmax : m'.max = m.max) : m'.Orderly where
  grantedFirst := List.Pairwise.sublist hsub h.grantedFirst
  limit d hpos := by
    rw [hmax] at hpos ⊢
    have hle := hsub.countP_le (p := fun r => r.downloading = d ∧ r.gaveGoAhead = true)
    have := h.limit d hpos
    simp only [count] at this ⊢
    omega

theorem Orderly.fair (h : m'.Orderly) (hmax : m'.max = m.max)
    (hkept : (m'.xferQueue.map TransferQueueRequest.sock ++ es.map (·.request.sock)).Perm
      (m.socks a)) (hjust : ∀ e ∈ es, m.Justified a e)
    (hno : ∀ visit now, a ≠ .checkTransferQueue visit now) : m.Fair a m' es where
  order := h.grantedFirst.granted_prefix
  limit := h.limit
  max := hmax
  kept := hkept
  justified := hjust
  inProgress visit now ha := absurd ha (hno visit now)
  waiting visit now ha := absurd ha (hno visit now)

theorem Orderly.added (h : m.Orderly) (client : TransferQueueRequest)
    (hc : client.gaveGoAhead = false) (accepted : Bool) :
    (m.addRequest client accepted).Orderly := by
  unfold addRequest
  split
  next =>
    constructor
    · refine List.pairwise_append.mpr ⟨h.grantedFirst,pairwise_singleton _ _,?_⟩
      intro r _ s hs _ hg
      rw [List.mem_singleton.mp hs,hc] at hg
      cases hg
    · intro d hpos
      have := h.limit d hpos
      simp only [count,countP_append,countP_singleton] at this ⊢
      simpa [hc] using this
  next => exact h

private theorem Orderly.handleDisconnect {sock : Nat} (h : m.Orderly)
    (hs : m.handleDisconnect sock = some (m',es)) :
    m'.Orderly ∧ m.Fair (.handleDisconnect sock) m' es := by
  unfold TransferQueueManager.handleDisconnect at hs
  obtain ⟨client,hfind,heq⟩ := Option.map_eq_some_iff.mp hs
  cases heq
  obtain ⟨hsock,as,bs,hq,hbefore⟩ := List.find?_eq_some_iff_append.mp hfind
  simp only [decide_eq_true_eq] at hsock
  have horderly : { m with
      xferQueue := m.xferQueue.eraseP (·.sock = sock)
      checkQueueTimer := true }.Orderly := h.sublist eraseP_sublist rfl
  refine ⟨horderly,horderly.fair rfl ?_ ?_ (by simp)⟩
  · have herase : m.xferQueue.eraseP (·.sock = sock) = as ++ bs := by
      rw [hq,eraseP_append_right _ (by simpa using hbefore),eraseP_cons_of_pos (by simpa)]
    simp only [socks]
    rw [herase,hq]
    simp only [map_append,map_cons,map_nil,append_assoc]
    exact (perm_append_comm).append_left _
  · intro e he
    rw [List.mem_singleton.mp he]
    simp [Justified,hsock]

private theorem checkTransferQueue_spec (m : TransferQueueManager) (visit : Nat → Visit)
    (now : Nat → Int) : ∃ q p es es', Scanned m.max visit 0 (fun _ => {}) m.xferQueue q p es ∧
      q = (scan m.max visit 0 (fun _ => {}) m.xferQueue).1 ∧
      (m.checkTransferQueue visit now).1.max = m.max ∧
      (m.checkTransferQueue visit now).1.progress = p ∧
      (m.checkTransferQueue visit now).2 = es ++ es' ∧
      ((m.checkTransferQueue visit now).1.xferQueue = q ∧ es' = [] ∨
        ∃ as client bs, q = as ++ client :: bs ∧ OverAge client (now as.length) ∧
          (m.checkTransferQueue visit now).1.xferQueue = as ++ bs ∧
            es' = [⟨client,.overAge (now as.length)⟩]) := by
  have hscan : Scanned m.max visit 0 (fun _ => {}) m.xferQueue _ _ _ :=
    scan_spec m.max visit m.xferQueue (by simp)
  rcases hsc : scan m.max visit 0 (fun _ => {}) m.xferQueue with ⟨q,p,waits,es⟩
  rw [hsc] at hscan
  cases waits with
  | false =>
    have hcheck : m.checkTransferQueue visit now =
        ({ m with xferQueue := q, checkQueueTimer := es ++ [] ≠ [], progress := p },es ++ []) := by
      rw [checkTransferQueue,hsc]
      rfl
    rw [hcheck]
    exact ⟨q,p,es,[],hscan,rfl,rfl,rfl,rfl,.inl ⟨rfl,rfl⟩⟩
  | true =>
    have hcheck : m.checkTransferQueue visit now =
        ({ m with
            xferQueue := (dropAncient now 0 q).1
            checkQueueTimer := es ++ (dropAncient now 0 q).2 ≠ []
            progress := p },es ++ (dropAncient now 0 q).2) := by
      rw [checkTransferQueue,hsc]
      rfl
    rw [hcheck]
    refine ⟨q,p,es,_,hscan,rfl,rfl,rfl,rfl,?_⟩
    rcases dropAncient_spec now 0 q with h | ⟨as,client,bs,hq,hover,h⟩
    · rw [h]
      exact .inl ⟨rfl,rfl⟩
    · rw [Nat.zero_add] at h hover
      rw [h]
      exact .inr ⟨as,client,bs,hq,hover,rfl,rfl⟩

private theorem ancient_eq_zero {d : Bool} (h : ∀ e ∈ es, DropReason.isOverAge e.reason = false) :
    ancient es d = 0 := by
  apply List.countP_eq_zero.mpr
  intro e he
  simp [h e he]

theorem Orderly.check {visit : Nat → Visit} {now : Nat → Int} (h : m.Orderly)
    (hages : m.AgesFit (.checkTransferQueue visit now)) :
    (m.checkTransferQueue visit now).1.Orderly ∧
      m.Fair (.checkTransferQueue visit now) (m.checkTransferQueue visit now).1
        (m.checkTransferQueue visit now).2 := by
  obtain ⟨q,p,es,es',hscan,hq,hmax,hp,hes,hcases⟩ := m.checkTransferQueue_spec visit now
  have hlimit : WithinLimit m.max fun d => count q d true := by
    intro d hpos
    have := hscan.limit h.grantedFirst (by simpa using h.limit) d hpos
    simpa [hscan.inProgress] using this
  have hscanned : ({ m with xferQueue := q } : TransferQueueManager).Orderly :=
    ⟨hscan.grantedFirst h.grantedFirst,hlimit⟩
  have hfailed : ∀ e ∈ es, m.Justified (.checkTransferQueue visit now) e ∧
      DropReason.isOverAge e.reason = false := by
    intro e he
    obtain ⟨hreason,k,hk,hsent⟩ := hscan.dropped e he
    simp only [Justified,hreason]
    exact ⟨⟨visit,now,k,rfl,hk,by simpa using hsent⟩,rfl⟩
  have hnone : ∀ d, ancient es d = 0 := fun d => ancient_eq_zero fun e he => (hfailed e he).2
  have hprogress : ∀ d, (p d).inProgress = count q d true ∧ (p d).waiting = count q d false := by
    intro d
    rw [hscan.inProgress,hscan.waiting]
    simp
  rcases hcases with ⟨hqueue,rfl⟩ | ⟨as,client,bs,hsplit,hover,hqueue,rfl⟩
  · have horderly : (m.checkTransferQueue visit now).1.Orderly :=
      hscanned.sublist (by rw [hqueue]) hmax
    refine ⟨horderly,horderly.grantedFirst.granted_prefix,horderly.limit,hmax,?_,?_,?_,?_⟩
    · rw [hqueue,hes,append_nil]
      exact hscan.kept
    · rw [hes,append_nil]
      exact fun e he => (hfailed e he).1
    · intro _ _ _ d
      rw [hp,hqueue,hes,append_nil,hnone,(hprogress d).1]
      simp
    · intro _ _ _ d
      rw [hp,hqueue,(hprogress d).2]
  · have horderly : (m.checkTransferQueue visit now).1.Orderly := by
      apply hscanned.sublist _ hmax
      rw [hqueue,hsplit]
      exact (sublist_cons_self client bs).append_left as
    have hget : (scan m.max visit 0 (fun _ => {}) m.xferQueue).1[as.length]? = some client := by
      rw [← hq,hsplit]
      simp
    obtain ⟨hage,hmaxAge⟩ := hages as.length client hget hover.1
    have hold : ancient (es ++ [⟨client,.overAge (now as.length)⟩]) = fun d =>
        if client.downloading = d then 1 else 0 := by
      funext d
      have := hnone d
      simp only [ancient] at this ⊢
      rw [countP_append,this]
      simp [countP_singleton,DropReason.isOverAge]
    have hcount : ∀ d g, count q d g = count (as ++ bs) d g +
        if client.downloading = d ∧ client.gaveGoAhead = g then 1 else 0 := by
      intro d g
      rw [hsplit]
      simp only [count,countP_append,countP_cons,decide_eq_true_eq]
      omega
    refine ⟨horderly,horderly.grantedFirst.granted_prefix,horderly.limit,hmax,?_,?_,?_,?_⟩
    · have hkept := hscan.kept
      rw [hqueue,hes]
      rw [hsplit] at hkept
      simp only [map_append,map_cons,map_nil] at hkept ⊢
      refine List.Perm.trans ?_ hkept
      rw [append_assoc,append_assoc]
      apply List.Perm.append_left
      rw [← append_assoc]
      exact perm_append_comm
    · intro e he
      rw [hes] at he
      rcases List.mem_append.mp he with he | he
      · exact (hfailed e he).1
      · rw [List.mem_singleton.mp he]
        obtain ⟨hg,hpos,hlt⟩ := hover
        rw [hmaxAge] at hpos
        rw [hmaxAge,hage] at hlt
        exact ⟨hg,hpos,hlt⟩
    · intro _ _ _ d
      rw [hp,hqueue,hes,hold,(hprogress d).1,hcount,hover.1]
      simp
    · intro _ _ _ d
      rw [hp,hqueue,(hprogress d).2,hcount,hover.1]
      simp

theorem Orderly.act (h : m.Orderly) (hages : m.AgesFit a) (hs : m.act a = some (m',es)) :
    m'.Orderly ∧ m.Fair a m' es := by
  cases a with
  | addRequest sock downloading maxQueueAge timeBorn accepted =>
    cases hs
    have horderly := h.added ⟨sock,downloading,false,maxQueueAge,timeBorn,0⟩ rfl accepted
    refine ⟨horderly,horderly.fair ?_ ?_ (by simp) (by simp)⟩
    · cases accepted <;> rfl
    · cases accepted <;> simp [addRequest,socks]
  | handleDisconnect sock => exact h.handleDisconnect hs
  | checkTransferQueue visit now =>
    cases hs
    exact h.check hages

def start (max : Bool → Int) : TransferQueueManager where
  max := max

private theorem orderly_start (max : Bool → Int) : (start max).Orderly where
  grantedFirst := List.Pairwise.nil
  limit d hpos := by
    simp only [start,count] at hpos ⊢
    simp
    omega

/-- Along every run in which the ages fit an int, every action is fair. -/
theorem fair_of_run {max : Bool → Int} {acts : List Action}
    (hok : Lib.Along step AgesFit (start max) acts) :
    Lib.Along step StaysFair (start max) acts := by
  have hgen : ∀ t : TransferQueueManager, t.Orderly → Lib.Along step AgesFit t acts →
      Lib.Along step StaysFair t acts := by
    clear hok
    induction acts with
    | nil => exact fun _ _ _ => trivial
    | cons a acts ih =>
      intro t ht hok
      refine ⟨fun m' es hs => (ht.act hok.1 hs).2,fun u hu => ?_⟩
      obtain ⟨⟨u',es⟩,hs,rfl⟩ := Option.map_eq_some_iff.mp hu
      exact ih u' (ht.act hok.1 hs).1 (hok.2 u' hu)
  exact hgen _ (orderly_start max) hok

def twoUploads : List Action :=
  [.addRequest 1 false 500 0 true,.addRequest 2 false 500 0 true]

theorem fair_of_run_twoUploads : Lib.Along step StaysFair (start fun _ => 1)
    (twoUploads ++ [.checkTransferQueue (fun _ => ⟨true,100⟩) fun _ => 1000,
      .handleDisconnect 2]) := by
  apply fair_of_run
  refine ⟨trivial,fun t ht => ⟨trivial,fun u hu => ⟨?_,fun v _ => ⟨trivial,fun _ _ => trivial⟩⟩⟩⟩
  cases ht
  cases hu
  intro k r hr hg
  match k with
  | 0 =>
    cases hr
    decide
  | 1 =>
    cases hr
    cases hg
  | k + 2 => cases hr

/-- The clock goes back from 2^32 to 1000: the request that has just been granted is dropped. -/
theorem dropped_before_its_age : ∃ m m' es, Lib.run step (start fun _ => 1) twoUploads = some m ∧
    m.act (.checkTransferQueue (fun _ => ⟨true,2^32⟩) fun _ => 1000) = some (m',es) ∧
      ∃ e ∈ es, ¬m.Justified (.checkTransferQueue (fun _ => ⟨true,2^32⟩) fun _ => 1000) e := by
  refine ⟨_,_,_,rfl,rfl,⟨⟨1,false,true,500,0,2^32⟩,.overAge 1000⟩,?_,?_⟩
  · exact List.mem_singleton.mpr rfl
  · simp [Justified]

end TransferQueueManager

end Condor.Schedd
