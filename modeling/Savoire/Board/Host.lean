import Savoire.Library.KeyedMap
import Savoire.Library.Transition
import Savoire.Library.Windows
import Savoire.Text

/-! What a board may do: the messages of its frame, the watched queries and the writes they start, each
at its awaits. -/
namespace Savoire.Board
open Transition

def maxWritesPerMinute : Nat := 60
def maxWatches : Nat := 50

/-- `60_000` milliseconds. -/
def minute : Nat := 60000

/-- `asks`: `confirmWrite` is given. -/
structure BoardHostOptions where
  readOnly : Bool
  asks : Bool

/-- Once allowed, a property of a note or a new page is written at once; a light row waits for the lots of
its base. -/
inductive Target
  | note
  | lightRow
  deriving DecidableEq

structure Call (ι : Type) where
  id : ι
  target : Target

/-- It waits for the answer of `confirmWrite`, with the time at which its rate was looked at. -/
structure Asked (ι : Type) where
  call : Call ι
  now : Nat

/-- It is allowed, counted under `stamp`, and waits for its lots. -/
structure Opening (ι : Type) where
  call : Call ι
  stamp : Nat

/-- A write that began. `accepted`: a confirmation for the path of the board was accepted by then. -/
structure Begun where
  stamp : Nat
  time : Nat
  accepted : Bool

/-- A watch whose query is being resolved. `ended`: its unwatch, a load or the disposal came since. -/
structure Request (ι : Type) where
  id : ι
  ended : Bool

/-- A watch of the engine that was not stopped. -/
structure Watch (ι : Type) where
  id : ι
  token : Nat
  ended : Bool

/-- `watches` gives the watch that the kept `stop` is of. `called` are the calls before `allowWrite`. -/
structure State (ι : Type) where
  now : Nat
  disposed : Bool
  watches : KeyedMap ι Nat
  resolving : List (Request ι)
  live : List (Watch ι)
  tokens : Nat
  grants : Option Bool
  accepted : Bool
  writes : List Nat
  called : List (Call ι)
  asked : List (Asked ι)
  opening : List (Opening ι)
  begun : List Begun
  errors : List (ι × Text)

inductive Event (ι : Type)
  | watch (id : ι)
  | unwatch (id : ι)
  | call (c : Call ι)
  | load
  | dispose
  /-- `gone`: the host is disposed of while the engine starts the watch. -/
  | resolved (request : Nat) (gone : Bool)
  | resolveFails (request : Nat) (e : Text)
  /-- A call comes to `allowWrite`. -/
  | reach (call : Nat)
  | callFails (call : Nat) (e : Text)
  | answer (asked : Nat) (granted : Bool)
  | confirmFails (asked : Nat) (e : Text)
  | opened (opening : Nat)
  | openFails (opening : Nat) (e : Text)
  /-- Another host of the same path sets its answer. -/
  | otherHost (granted : Bool)
  | tick (ms : Nat)

def start {ι : Type} : State ι := ⟨0, false, .empty, [], [], 0, none, false, [], [], [], [], [], []⟩

namespace State
variable {ι : Type} (s : State ι)

def post (id : ι) (e : Text) : State ι :=
  { s with errors := if s.disposed then s.errors else s.errors ++ [(id, e)] }

/-- Every watch that was asked for so far is to stop. -/
def endAll : State ι :=
  { s with
    resolving := s.resolving.map fun r => { r with ended := true }
    live := s.live.map fun w => { w with ended := true } }

def stopWatches : State ι :=
  { s with
    live := s.live.filter fun w => w.token ∉ s.watches.entries.map Prod.snd
    watches := .empty }

def load : State ι := s.stopWatches.endAll

def dispose : State ι := if s.disposed then s else { s.stopWatches.endAll with disposed := true }

def expire : State ι := { s with writes := Windows.recent minute s.now s.writes }

def begin (stamp : Nat) : State ι := { s with begun := s.begun ++ [⟨stamp, s.now, s.accepted⟩] }

/-- The end of `allowWrite`, and how the call goes on. `now` was read at its start. -/
def enter (c : Call ι) (granted : Bool) (now : Nat) : State ι :=
  if granted then
    match c.target with
    | .note => { s with writes := s.writes ++ [now] }.begin now
    | .lightRow => { s with writes := s.writes ++ [now], opening := s.opening ++ [⟨c, now⟩] }
  else s.post c.id "Écriture refusée pour ce board.".toList

/-- `allowWrite`, until it waits for an answer. -/
def allowWrite (o : BoardHostOptions) (c : Call ι) : State ι :=
  if o.readOnly then s.post c.id "Lecture seule : ce board ne peut rien modifier ici.".toList
  else if maxWritesPerMinute ≤ s.expire.writes.length then
    s.expire.post c.id "Trop d'écritures (60 par minute au plus).".toList
  else match s.grants with
    | some granted => s.expire.enter c granted s.now
    | none => if o.asks then { s.expire with asked := s.asked ++ [⟨c, s.now⟩] }
      else { s.expire with grants := some false }.enter c false s.now

def grant (granted : Bool) : State ι := { s with grants := some granted, accepted := s.accepted || granted }

variable [DecidableEq ι]

def watch (id : ι) : State ι :=
  if maxWatches ≤ s.watches.entries.length then
    s.post id "Trop de requêtes suivies (50 au plus).".toList
  else { s with resolving := s.resolving ++ [⟨id, false⟩] }

def unwatch (id : ι) : State ι :=
  { s with
    live := (s.live.filter fun w => some w.token ≠ s.watches.get id).map fun w =>
      { w with ended := w.ended || w.id = id }
    watches := s.watches.delete id
    resolving := s.resolving.map fun r => { r with ended := r.ended || r.id = id } }

/-- The rest of `startWatch`, its query resolved. -/
def startWatch (r : Request ι) (gone : Bool) : State ι :=
  if s.disposed then s
  else if gone then { s.dispose with tokens := s.tokens + 1 }
  else
    { s with
      live := s.live ++ [⟨r.id, s.tokens, r.ended⟩]
      watches := s.watches.set r.id s.tokens
      tokens := s.tokens + 1 }

end State

section
variable {ι : Type} [DecidableEq ι] (o : BoardHostOptions)

def step (s : State ι) : Event ι → Option (State ι)
  | .watch id => some (if s.disposed then s else s.watch id)
  | .unwatch id => some (if s.disposed then s else s.unwatch id)
  | .call c => some (if s.disposed then s else { s with called := s.called ++ [c] })
  | .load => some s.load
  | .dispose => some s.dispose
  | .resolved i gone => s.resolving[i]?.map fun r => { s with resolving := s.resolving.eraseIdx i }.startWatch r gone
  | .resolveFails i e => s.resolving[i]?.map fun r => { s with resolving := s.resolving.eraseIdx i }.post r.id e
  | .reach i => s.called[i]?.map fun c => { s with called := s.called.eraseIdx i }.allowWrite o c
  | .callFails i e => s.called[i]?.map fun c => { s with called := s.called.eraseIdx i }.post c.id e
  | .answer i granted => s.asked[i]?.map fun a =>
    ({ s with asked := s.asked.eraseIdx i }.grant granted).enter a.call granted a.now
  | .confirmFails i e => s.asked[i]?.map fun a => { s with asked := s.asked.eraseIdx i }.post a.call.id e
  | .opened i => s.opening[i]?.map fun p => { s with opening := s.opening.eraseIdx i }.begin p.stamp
  | .openFails i e => s.opening[i]?.map fun p => { s with opening := s.opening.eraseIdx i }.post p.call.id e
  | .otherHost granted => some (s.grant granted)
  | .tick ms => some { s with now := s.now + ms }

end

structure WithinLimits {ι : Type} (o : BoardHostOptions) (s : State ι) : Prop where
  confirmed (b : Begun) : b ∈ s.begun → o.readOnly = false ∧ b.accepted = true
  rate (first : Nat) : (Windows.within minute first (s.begun.map Begun.time)).length ≤ maxWritesPerMinute
  watches : s.live.length ≤ maxWatches
  /-- None is live that the host holds no more or that was to be stopped. -/
  held (w : Watch ι) : w ∈ s.live → (w.id, w.token) ∈ s.watches.entries ∧ w.ended = false

end Savoire.Board
