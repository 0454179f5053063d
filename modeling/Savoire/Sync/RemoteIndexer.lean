import Mathlib
import Savoire.Text
import Savoire.Library.Transition

/-! The indexer of a vault on the server, as a client follows it: its calls, what it does after a refusal, the
timer that reads the state of the indexer, and the watched queries. -/
namespace Savoire.RemoteIndexer
open Transition

structure Options where
  idlePollMs : Nat := 30000
  busyPollMs : Nat := 5000
  settleMs : Nat := 1500
  minCheckMs : Nat := 2000
  pendingTtlMs : Nat := 20000
  retryBaseMs : Nat := 5000
  retryMaxMs : Nat := 60000
  modeRetryMs : Nat := 60000
  retryBase_pos : 0 < retryBaseMs := by decide
  retryMax_pos : 0 < retryMaxMs := by decide
  modeRetry_pos : 0 < modeRetryMs := by decide

inductive IndexStatus
  | ready | building | lagging | unavailable
  deriving DecidableEq

inductive DownReason
  | none | organization | denied | busy | down
  deriving DecidableEq

structure VaultIndexerStatus where
  state : IndexStatus
  pending : Nat
  reason : Option DownReason
  retryAt : Option Nat
  seq : Option Nat
  docs : Option Nat
  deriving DecidableEq

structure PendingNote where
  key : Text
  at_ : Nat
  seq : Option Nat
  idle : Bool
  deriving DecidableEq

/-- `owed` records that a run failed or was skipped because the indexer was down, or that the indexer has
announced a new sequence, and that no run has started since. -/
structure RemoteWatch where
  id : Nat
  running : Bool
  again : Bool
  owed : Bool
  deriving DecidableEq

/-- `waiting` lists the runs that the check waits for once it has been answered. -/
structure Check where
  force : Bool
  firstProbe : Bool
  startedAt : Nat
  wasBlocked : Bool
  wasBuilding : Bool
  prevSeq : Option Nat
  waiting : Option (List Nat)
  deriving DecidableEq

structure IndexStatusInfo where
  status : IndexStatus
  seq : Option Nat
  docs : Option Nat
  deriving DecidableEq

inductive Call
  | watch (id : Nat)
  | status
  | other
  deriving DecidableEq

/-- What goes on once a call has been answered. -/
inductive Resume
  | watch (id : Nat)
  | status (info : Option IndexStatusInfo)
  deriving DecidableEq

structure HttpError where
  status : Nat
  code : Text
  mode : Option Text
  retryAfterMs : Option Nat
  deriving DecidableEq

/-- `lifted` records that a block was lifted while a check was running and that no query has been run again
since. -/
structure Indexer where
  now : Nat
  st : VaultIndexerStatus
  listeners : Nat
  watches : List RemoteWatch
  nextWatch : Nat
  blockedUntil : Nat
  failures : Nat
  pending : List PendingNote
  dirtyAt : Option Nat
  dirtyChecks : Nat
  /-- No check has begun as long as `probe` is set. -/
  lastCheck : Nat
  probe : Bool
  timer : Option Nat
  checking : Option Check
  /-- Forced checks that wait for the end of the one that is running. -/
  queued : Nat
  calls : List Call
  resumes : List Resume
  lifted : Bool
  deriving DecidableEq

namespace Indexer
variable (o : Options) (s : Indexer)

def blocked : Bool := decide (s.now < s.blockedUntil)

def interested : Bool := !s.watches.isEmpty || decide (0 < s.listeners)

def nextCheck : Option Nat :=
  if s.probe then some s.now
  else if s.blocked then some s.blockedUntil
  else
    let dirty := s.dirtyAt.map fun d => max (d + o.settleMs) (s.lastCheck + min 8000 (o.minCheckMs * 2 ^ s.dirtyChecks))
    if s.interested then
      let busy := s.st.state = .building ∨ s.st.state = .lagging
      let poll := s.lastCheck + if busy then o.busyPollMs else o.idlePollMs
      some (dirty.elim poll (min poll))
    else dirty

/-- `schedule` -/
def schedule : Indexer :=
  if s.checking.isSome then s else { s with timer := (s.nextCheck o).map (max s.now) }

/-- What `runWatch` does to a watch. -/
def runOne (w : RemoteWatch) : RemoteWatch :=
  if w.running then { w with again := true }
  else if s.blocked then { w with owed := true }
  else { w with running := true, again := false, owed := false }

def starts (w : RemoteWatch) : Bool := !w.running && !s.blocked

def runWatches (p : RemoteWatch → Bool) : Indexer :=
  { s with
    watches := s.watches.map fun w => if p w then s.runOne w else w
    calls := s.calls ++ (s.watches.filter fun w => p w && s.starts w).map fun w => Call.watch w.id }

def runWatch (id : Nat) : Indexer := s.runWatches fun w => w.id == id

def rerunWatches : Indexer := { s.runWatches (fun _ => true) with lifted := false }

/-- `watch` -/
def watch : Indexer :=
  let s' : Indexer :=
    { s with watches := s.watches ++ [⟨s.nextWatch, false, false, false⟩], nextWatch := s.nextWatch + 1 }
  (s'.runWatch s.nextWatch).schedule o

/-- The function that `watch` gives back. -/
def unwatch (id : Nat) : Indexer :=
  { s with watches := s.watches.filter fun w => w.id != id : Indexer }.schedule o

def succeeded (state : Option IndexStatus) : Indexer :=
  let wasBlocked := decide (0 < s.blockedUntil)
  let state := state.getD (if s.st.reason.isSome then .ready else s.st.state)
  let s' := { s with
    failures := 0, blockedUntil := 0, st := { s.st with state, reason := none, retryAt := none } }
  if wasBlocked && s.checking.isNone then s'.rerunWatches.schedule o
  else { s' with lifted := s.lifted || wasBlocked }

def owe (call : Call) (w : RemoteWatch) : RemoteWatch :=
  if call = .watch w.id then { w with owed := true } else w

/-- The indexer answered that it refuses the request itself: nothing changes. -/
def refused (e : HttpError) : Bool :=
  e.status = 400 || e.status = 413 || (e.status = 404 && e.code.take 8 = "unknown_".toList)

/-- `failed`; none for an error that is not of HTTP or for a request given up. -/
def failed (call : Call) : Option HttpError → Indexer
  | none => s
  | some e =>
    if refused e then s
    else
      let block (reason : DownReason) (failures wait : Nat) : Indexer :=
        { s with
          failures
          blockedUntil := s.now + wait
          st := { s.st with
            state := if reason = DownReason.busy then .lagging else .unavailable
            reason := some reason
            retryAt := some (s.now + wait) }
          watches := s.watches.map (owe call)
          lifted := false : Indexer }.schedule o
      if e.status = 503 ∧ e.mode = some "none".toList then block .none s.failures o.modeRetryMs
      else if e.status = 503 ∧ e.mode = some "organization".toList then block .organization s.failures o.modeRetryMs
      else if e.status = 401 ∨ e.status = 403 ∨ e.status = 404 then block .denied s.failures o.modeRetryMs
      else
        let backoff := min o.retryMaxMs (o.retryBaseMs * 2 ^ s.failures)
        block (if e.status = 429 then .busy else .down) (s.failures + 1) (max (e.retryAfterMs.getD 0) backoff)

inductive Answer
  | ok (state : Option IndexStatus) (info : IndexStatusInfo)
  | error (e : Option HttpError)
  deriving DecidableEq

def resumeOf (info : Option IndexStatusInfo) : Call → List Resume
  | .watch id => [.watch id]
  | .status => [.status info]
  | .other => []

def answer (call : Call) : Answer → Indexer
  | .ok state info => { s with resumes := s.resumes ++ resumeOf (some info) call : Indexer }.succeeded o state
  | .error e => { s with resumes := s.resumes ++ resumeOf none call : Indexer }.failed o call e

/-- The loop of `runWatch`, after an answer. -/
def resumeWatch (id : Nat) : Indexer :=
  match s.watches.find? fun w => w.id == id with
  | some w =>
    if w.again && !s.blocked then
      { s with
        watches := s.watches.map fun w => if w.id == id then { w with again := false, owed := false } else w
        calls := s.calls ++ [.watch id] }
    else
      { s with
        watches := s.watches.map fun w => if w.id == id then { w with running := false } else w
        checking := s.checking.map fun c => { c with waiting := c.waiting.map (·.filter (· != id)) } }
  | none =>
    { s with checking := s.checking.map fun c => { c with waiting := c.waiting.map (·.filter (· != id)) } }

def oldest (pending : List PendingNote) : Option Nat := (pending.map PendingNote.at_).min?

def publishPending : Indexer :=
  { s with st := { s.st with pending := (s.pending.filter fun p => p.key != []).length } }

def noteLocalChange (key : Text) : Indexer :=
  let pending := s.pending.filter (fun p => p.key != key) ++ [⟨key, s.now, s.st.seq, false⟩]
  let s' := match s.dirtyAt with
    | none => { s with pending, dirtyAt := some s.now, dirtyChecks := 0 }
    | some _ => { s with pending }
  s'.publishPending.schedule o

def expirePending (now : Nat) : Indexer :=
  let pending := s.pending.filter fun p => decide (now < p.at_ + o.pendingTtlMs)
  { s with pending, dirtyAt := oldest pending : Indexer }.publishPending

/-- The start of `check`. Its call is refused at once as long as the indexer is blocked. -/
def beginCheck (force : Bool) : Indexer :=
  let check : Check := ⟨force, s.probe, s.now, decide (0 < s.blockedUntil), decide (s.st.state = .building), s.st.seq,
    none⟩
  let s' : Indexer := { s with timer := none, probe := false, lastCheck := s.now, checking := some check }
  if !force && s.blocked then { s' with resumes := s.resumes ++ [.status none] }
  else { s' with calls := s.calls ++ [.status] }

/-- A note is seen once the indexer has moved since, or on the second look. -/
def seenNotes (c : Check) (seq : Option Nat) (pending : List PendingNote) : List PendingNote :=
  pending.filterMap fun p =>
    if decide (c.startedAt < p.at_ + o.settleMs) then some p
    else if seq.elim true (fun q => p.seq.elim true fun r => decide (r < q)) || p.idle then none
    else some { p with idle := true }

def advanced (c : Check) (seq : Option Nat) : Bool :=
  match seq, c.prevSeq with
  | some q, some p => decide (q ≠ p)
  | _, _ => s.dirtyAt.isSome

/-- Whether a check that has been answered runs the watched queries again. -/
def reruns (c : Check) (advanced : Bool) (status : IndexStatus) : Bool :=
  c.force || (!c.firstProbe && (advanced || c.wasBlocked || (decide (status = .building) || c.wasBuilding)))

/-- The indexer announces a sequence other than the one known before. -/
def announces (c : Check) (seq : Option Nat) : Bool :=
  match seq, c.prevSeq with
  | some q, some p => decide (q ≠ p)
  | _, _ => false

/-- The check after its call. -/
def resumeStatus (c : Check) : Option IndexStatusInfo → Indexer
  | none => { s.expirePending o c.startedAt with checking := some { c with waiting := some [] } }
  | some info =>
    let advanced := s.advanced c info.seq
    let pending := seenNotes o c info.seq s.pending
    let dirtyAt := oldest pending
    let s1 : Indexer := { s with
      st := { s.st with seq := info.seq.or s.st.seq, docs := info.docs.or s.st.docs }
      pending
      dirtyAt
      dirtyChecks := if advanced then 0 else if dirtyAt.isSome then s.dirtyChecks + 1 else s.dirtyChecks
      watches := s.watches.map fun w => { w with owed := w.owed || announces c info.seq } }
    let s2 := s1.expirePending o c.startedAt
    if reruns c advanced info.status then
      let s3 := s2.rerunWatches
      let running := (s3.watches.filter RemoteWatch.running).map RemoteWatch.id
      { s3 with checking := some { c with waiting := some running } }
    else { s2 with checking := some { c with waiting := some [] } }

def endCheck : Indexer := { s with checking := none : Indexer }.schedule o

end Indexer
open Indexer

inductive Event
  | clock (t : Nat)
  | watch
  | unwatch (id : Nat)
  /-- A call of another user. -/
  | call
  | answer (k : Nat) (r : Answer)
  | resume (k : Nat)
  | timer
  | refreshNow
  | queuedCheck
  | endCheck
  | noteLocalChange (key : Text)
  | listen
  | unlisten
  deriving DecidableEq

def step (o : Options) (s : Indexer) : Event → Option Indexer
  | .clock t => if s.now ≤ t then some { s with now := t } else none
  | .watch => some (s.watch o)
  | .unwatch id => some (s.unwatch o id)
  | .call => if s.blocked then some s else some { s with calls := s.calls ++ [.other] }
  | .answer k r => match s.calls[k]? with
    | none => none
    | some call => some ({ s with calls := s.calls.eraseIdx k : Indexer }.answer o call r)
  | .resume k => match s.resumes[k]? with
    | none => none
    | some (.watch id) => some ({ s with resumes := s.resumes.eraseIdx k : Indexer }.resumeWatch id)
    | some (.status info) => match s.checking with
      | none => none
      | some c => some ({ s with resumes := s.resumes.eraseIdx k : Indexer }.resumeStatus o c info)
  | .timer => match s.timer with
    | none => none
    | some due =>
    if s.now < due then none
    else if s.checking.isSome then some { s with timer := none }
    else some ({ s with timer := none : Indexer }.beginCheck false)
  | .refreshNow => if s.checking.isSome then some { s with queued := s.queued + 1 } else some (s.beginCheck true)
  | .queuedCheck =>
    if 0 < s.queued ∧ s.checking = none then some ({ s with queued := s.queued - 1 : Indexer }.beginCheck true)
    else none
  | .endCheck => if s.checking.any fun c => c.waiting == some [] then some (s.endCheck o) else none
  | .noteLocalChange key => some (s.noteLocalChange o key)
  | .listen => some ({ s with listeners := s.listeners + 1 : Indexer }.schedule o)
  | .unlisten => if 0 < s.listeners then some ({ s with listeners := s.listeners - 1 : Indexer }.schedule o) else none

/-- The constructor, at some time. -/
def start (o : Options) (now : Nat) : Indexer :=
  { now, st := ⟨.ready, 0, none, none, none, none⟩, listeners := 0, watches := [], nextWatch := 0, blockedUntil := 0,
    failures := 0, pending := [], dirtyAt := none, dirtyChecks := 0, lastCheck := 0, probe := true, timer := none,
    checking := none, queued := 0, calls := [], resumes := [], lifted := false : Indexer }.schedule o

end Savoire.RemoteIndexer
