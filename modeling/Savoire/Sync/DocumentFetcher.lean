import Savoire.Library.KeyedMap
import Savoire.Library.Transition
import Savoire.Text

/-! The reading of closed documents over one connection: the replicas kept by document, the reads that wait for
them, and what the server sends to the connection. -/
namespace Savoire.DocumentFetcher
open Transition

inductive Kind
  | content | state
  deriving DecidableEq

/-- `HubConnectionState` -/
inductive Link
  | disconnected | connecting | connected | reconnecting
  deriving DecidableEq

/-- The call of the read that made the entry: it waits for the connection, then for the answer to
`JoinDocument`. A call made without a connection fails. -/
inductive Stage
  | starting
  | joining (conn : Option Nat)
  deriving DecidableEq

/-- A read; `before` and `began` record how many operations the server had accepted when it began, and the number
of the last connection then. -/
structure Read where
  kind : Kind
  before : Nat
  began : Nat
  deriving DecidableEq

section
variable (π : Type*)

/-- `DocEntry`: `ops` is what the replica contains, `waiting` the reads that wait for `initPromise`. `conn` and
`joined` record the connection that joined the document, and what the server had relayed by then. -/
structure DocEntry where
  ready : Bool
  ops : List π
  call : Option (Read × Stage)
  waiting : List Read
  conn : Nat
  joined : List (Text × π)
  deriving DecidableEq

inductive Request
  | join (docId : Text)
  | leave (docId : Text)
  deriving DecidableEq

inductive Message
  | initDocument (docId : Text) (ops : List π) (joined : List (Text × π))
  | receiveOperation (docId : Text) (op : π)
  /-- The answer to `JoinDocument`. -/
  | answer (docId : Text) (ok : Bool)
  deriving DecidableEq

/-- The server while it serves `JoinDocument`: it has read the operations, then adds the connection to the
group. -/
structure Serving where
  docId : Text
  ops : List π
  joined : Option (List (Text × π))
  deriving DecidableEq

/-- A read that has resolved. `owed` records the operations that it owes. -/
structure Result where
  docId : Text
  read : Read
  ops : List π
  conn : Nat
  owed : List π
  deriving DecidableEq

/-- `stranded` counts the reads that wait for an entry that is gone. Of the server: `log` is what it has accepted,
`pushes` what it has yet to relay, with the connection that pushed it. -/
structure Fetcher where
  link : Link
  conn : Nat
  docs : KeyedMap Text (DocEntry π)
  stranded : Nat
  inbox : List (Message π)
  delivered : List (Text × π)
  results : List (Result π)
  log : List (Text × π)
  pushes : List (Text × π × Option Nat)
  relayed : List (Text × π)
  requests : List Request
  serving : Option (Serving π)
  groups : List Text

end

variable {π : Type*}

namespace Fetcher
variable (s : Fetcher π)

/-- What a read owes: the operations that the server had accepted before it began, whose events have been
delivered or precede the joining of the document. -/
def owed [DecidableEq π] (docId : Text) (before : Nat) (joined : List (Text × π)) : List π :=
  ((s.log.take before).filter fun p =>
    decide (p.1 = docId) && (decide (p ∈ s.delivered) || decide (p ∈ joined))).map Prod.snd

def resolve [DecidableEq π] (docId : Text) (entry : DocEntry π) (read : Read) : Result π :=
  ⟨docId, read, entry.ops, entry.conn, s.owed docId read.before entry.joined⟩

/-- `getDocumentContent` and `getDocumentState`, up to their first wait. -/
def read [DecidableEq π] (kind : Kind) (docId : Text) : Fetcher π :=
  let r : Read := ⟨kind, s.log.length, s.conn⟩
  match s.docs.get docId with
  | some entry =>
    if entry.ready then { s with results := s.results ++ [s.resolve docId entry r] }
    else { s with docs := s.docs.set docId { entry with waiting := entry.waiting ++ [r] } }
  | none =>
    let entry (stage : Stage) : DocEntry π := ⟨false, [], some (r, stage), [], 0, []⟩
    match s.link with
    | .connected =>
      { s with
        docs := s.docs.set docId (entry (.joining (some s.conn)))
        requests := s.requests ++ [.join docId] }
    | .connecting => { s with docs := s.docs.set docId (entry .starting) }
    | .disconnected => { s with link := .connecting, docs := s.docs.set docId (entry .starting) }
    | .reconnecting => { s with docs := s.docs.set docId (entry (.joining none)) }

/-- The call of an entry fails: `getDocumentState` deletes the entry, `getDocumentContent` leaves it. -/
def reject (docId : Text) (entry : DocEntry π) : Fetcher π :=
  match entry.call with
  | some (⟨.state, _, _⟩, _) =>
    { s with docs := s.docs.delete docId, stranded := s.stranded + entry.waiting.length }
  | _ => { s with docs := s.docs.set docId { entry with call := none } }

/-- The call of an entry has been answered. `getDocumentState` leaves the document. -/
def answered [DecidableEq π] (docId : Text) (entry : DocEntry π) (read : Read) : Fetcher π :=
  let s' : Fetcher π := { s with results := s.results ++ [s.resolve docId entry read] }
  match read.kind with
  | .content => { s' with docs := s.docs.set docId { entry with call := none } }
  | .state =>
    { s' with
      docs := s.docs.delete docId
      requests := if s.link = .connected then s.requests ++ [.leave docId] else s.requests }

/-- What the server was to serve and to send on the connection is lost with it. -/
def cut (link : Link) : Fetcher π := { s with link, inbox := [], requests := [], serving := none, groups := [] }

end Fetcher

namespace DocEntry

def isStarting (entry : DocEntry π) : Bool := entry.call.any fun c => decide (c.2 = .starting)

end DocEntry

namespace Fetcher
variable (s : Fetcher π)

def started : Fetcher π :=
  { s.cut .connected with
    conn := s.conn + 1
    docs := s.docs.map fun _ entry =>
      if entry.isStarting then { entry with call := entry.call.map fun c => (c.1, .joining (some (s.conn + 1))) }
      else entry
    requests := (s.docs.entries.filter fun p => p.2.isStarting).map fun p => .join p.1 }

/-- The connection has not started, and the reads that waited for it fail. -/
def notStarted : Fetcher π :=
  (s.docs.entries.filter fun p => p.2.isStarting).foldl (fun s p => s.reject p.1 p.2)
    { s with link := .disconnected }

def receive [DecidableEq π] : Message π → Option (Fetcher π)
  | .initDocument docId ops joined => match s.docs.get docId with
    | none => some s
    | some entry =>
      let entry' : DocEntry π :=
        { entry with ready := true, ops := entry.ops ++ ops, waiting := [], conn := s.conn, joined }
      some { s with
        docs := s.docs.set docId entry'
        results := s.results ++ entry.waiting.map (s.resolve docId entry') }
  | .receiveOperation docId op =>
    let s' : Fetcher π := { s with delivered := s.delivered ++ [(docId, op)] }
    match s.docs.get docId with
    | none => some s'
    | some entry =>
      if entry.ready then some { s' with docs := s.docs.set docId { entry with ops := entry.ops ++ [op] } } else some s'
  | .answer docId ok => match s.docs.get docId with
    | none => some s
    | some entry => match entry.call with
      | some (read, .joining _) =>
        -- the initial state comes before the answer, on one connection
        if ok then if entry.ready then some (s.answered docId entry read) else none
        else some (s.reject docId entry)
      | _ => some s

end Fetcher

inductive Event (π : Type*)
  | read (kind : Kind) (docId : Text)
  | started (ok : Bool)
  | drop
  | closed
  | reconnected
  /-- A call made without a connection, or on one that is lost, fails. -/
  | failed (docId : Text)
  | deliver
  | serveRead (ok : Bool)
  | serveGroup
  | serveInit
  | serveLeave
  | store (docId : Text) (op : π) (own : Bool)
  | relay (k : Nat)

def step [DecidableEq π] (s : Fetcher π) : Event π → Option (Fetcher π)
  | .read kind docId => some (s.read kind docId)
  | .started ok => if s.link = .connecting then some (if ok then s.started else s.notStarted) else none
  | .drop => if s.link = .connected then some (s.cut .reconnecting) else none
  | .closed => if s.link = .connected ∨ s.link = .reconnecting then some (s.cut .disconnected) else none
  | .reconnected =>
    if s.link = .reconnecting then some { s.cut .connected with conn := s.conn + 1 } else none
  | .failed docId => match s.docs.get docId with
    | none => none
    | some entry => match entry.call with
      | some (_, .joining conn) =>
        if s.link = .connected ∧ conn = some s.conn then none else some (s.reject docId entry)
      | _ => none
  | .deliver => match s.link, s.inbox with
    | .connected, m :: inbox => Fetcher.receive { s with inbox } m
    | _, _ => none
  | .serveRead ok => match s.requests, s.serving with
    | .join docId :: requests, none =>
      if ok then some { s with serving := some ⟨docId, (s.log.filter fun p => p.1 = docId).map Prod.snd, none⟩ }
      else some { s with requests, inbox := s.inbox ++ [.answer docId false] }
    | _, _ => none
  | .serveGroup => match s.serving with
    | some ⟨docId, ops, none⟩ =>
      some { s with groups := s.groups ++ [docId], serving := some ⟨docId, ops, some s.relayed⟩ }
    | _ => none
  | .serveInit => match s.serving with
    | some ⟨docId, ops, some joined⟩ =>
      some { s with
        serving := none
        requests := s.requests.tail
        inbox := s.inbox ++ [.initDocument docId ops joined, .answer docId true] }
    | _ => none
  | .serveLeave => match s.requests, s.serving with
    | .leave docId :: requests, none => some { s with requests, groups := s.groups.filter (· ≠ docId) }
    | _, _ => none
  | .store docId op own =>
    some { s with
      log := s.log ++ [(docId, op)]
      pushes := s.pushes ++ [(docId, op, if own then some s.conn else none)] }
  | .relay k => match s.pushes[k]? with
    | none => none
    | some (docId, op, conn) =>
      some { s with
        pushes := s.pushes.eraseIdx k
        relayed := s.relayed ++ [(docId, op)]
        inbox := if docId ∈ s.groups ∧ conn ≠ some s.conn then s.inbox ++ [.receiveOperation docId op] else s.inbox }

def start : Fetcher π := ⟨.disconnected, 0, .empty, 0, [], [], [], [], [], [], [], none, []⟩

/-- No read is left waiting where the call of the entry fails: the entry has its state, or it was made by
`getDocumentState` and no other read waits for it. -/
def DocEntry.CanFail (entry : DocEntry π) : Prop :=
  entry.ready = true ∨ (∀ c ∈ entry.call, c.1.kind = .state) ∧ entry.waiting = []

/-- The document whose joining the server refuses. -/
def Message.refused : Message π → Option Text
  | .answer docId false => some docId
  | _ => none

/-- A call fails only where no read is left waiting, a connection comes up only where no replica has its state, and
the server relays no operation of a document while it serves a `JoinDocument` of it that has read the operations
without this one. -/
def Clear (s : Fetcher π) : Event π → Prop
  | .started true | .reconnected => ∀ p ∈ s.docs.entries, p.2.ready = false
  | .started false => ∀ p ∈ s.docs.entries, p.2.isStarting = true → p.2.CanFail
  | .failed docId => ∀ entry ∈ s.docs.get docId, entry.CanFail
  | .deliver => ∀ m ∈ s.inbox.head?, ∀ docId ∈ m.refused, ∀ entry ∈ s.docs.get docId, entry.CanFail
  | .relay k => ∀ p ∈ s.pushes[k]?, ∀ v ∈ s.serving, v.docId = p.1 → p.2.1 ∈ v.ops
  | _ => True

/-- No start of the connection and no `JoinDocument` is without its answer. -/
def Quiet (s : Fetcher π) : Prop :=
  s.link ≠ .connecting ∧ ∀ p ∈ s.docs.entries, ∀ c ∈ p.2.call, c.2 = .starting

structure Fresh (s : Fetcher π) : Prop where
  contains : ∀ r ∈ s.results, ∀ op ∈ r.owed, op ∈ r.ops
  joined : ∀ r ∈ s.results, r.read.began ≤ r.conn
  settled : Quiet s → (∀ p ∈ s.docs.entries, p.2.call = none ∧ p.2.waiting = []) ∧ s.stranded = 0

instance (entry : DocEntry π) : Decidable entry.CanFail :=
  inferInstanceAs (Decidable (_ ∨ (∀ c ∈ entry.call, c.1.kind = .state) ∧ _))

instance [DecidableEq π] (s : Fetcher π) : DecidablePred (Clear s)
  | .started true | .reconnected => inferInstanceAs (Decidable (∀ p ∈ s.docs.entries, p.2.ready = false))
  | .started false => inferInstanceAs (Decidable (∀ p ∈ s.docs.entries, p.2.isStarting = true → p.2.CanFail))
  | .failed docId => inferInstanceAs (Decidable (∀ entry ∈ s.docs.get docId, entry.CanFail))
  | .deliver => inferInstanceAs
      (Decidable (∀ m ∈ s.inbox.head?, ∀ docId ∈ m.refused, ∀ entry ∈ s.docs.get docId, entry.CanFail))
  | .relay k => inferInstanceAs
      (Decidable (∀ p ∈ s.pushes[k]?, ∀ v ∈ s.serving, v.docId = p.1 → p.2.1 ∈ v.ops))
  | .read .. | .drop | .closed | .serveRead _ | .serveGroup | .serveInit | .serveLeave | .store .. => isTrue trivial

instance (s : Fetcher π) : Decidable (Quiet s) := inferInstanceAs (Decidable (_ ∧ _))

end Savoire.DocumentFetcher
