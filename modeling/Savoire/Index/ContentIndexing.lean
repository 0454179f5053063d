import Savoire.Library.KeyedMap
import Savoire.Library.Transition
import Savoire.Text

/-! The index channels of the vault that is open, the contributors that fill them, and the change of vault. -/
namespace Savoire.ContentIndexing
open Transition

structure Session where
  id : Nat
  vault : Text
  deriving DecidableEq

/-- An instance of a contributor; `stamp` numbers the instances of one namespace. -/
structure Contributor where
  stamp : Nat
  ns : Text
  isShared : Bool
  deriving DecidableEq

/-- A channel that a contributor follows. -/
structure Subscription where
  ns : Text
  session : Session
  contributor : Contributor
  deriving DecidableEq

/-- A pass of `indexDocument` that waits for a snapshot to be saved; `vault` records the vault that was current
when it began. -/
structure Pass where
  vault : Text
  rest : List Contributor
  deriving DecidableEq

inductive Stage
  /-- The snapshot of a contributor is being loaded from the storage of `vault`. -/
  | loading (contributor : Contributor) (vault : Text) (rest : List Contributor)
  | opening
  deriving DecidableEq

structure Switch where
  vault : Text
  stage : Stage
  deriving DecidableEq

/-- What is written in a channel or a snapshot of a vault, and the vaults that it comes from. -/
structure Write where
  vault : Text
  sources : List Text
  deriving DecidableEq

/-- The storage is named by its vault. `vault` records the last vault switched to, `expected` the channels that
this switch has opened, if it came to its end, `received` the vaults whose entries each instance was given. -/
structure Service where
  vault : Text
  storage : Text
  stamp : Nat
  factories : KeyedMap Text Bool
  current : KeyedMap Text Contributor
  disabled : List Text
  channels : KeyedMap Text Session
  subscriptions : List Subscription
  disposed : List (Text × Session)
  passes : List Pass
  switches : List Switch
  expected : List (Text × Session)
  received : List (Contributor × Text)
  writes : List Write

namespace Service
variable (s : Service)

def registerFactory (ns : Text) (isShared : Bool) : Service :=
  { s with
    stamp := s.stamp + 1
    factories := s.factories.set ns isShared
    current := s.current.set ns ⟨s.stamp + 1, ns, isShared⟩ }

def rebuild : Service :=
  { s with
    stamp := s.stamp + 1
    current := s.factories.map fun ns isShared => ⟨s.stamp + 1, ns, isShared⟩ }

def getAllRegistered : List Contributor := s.current.entries.map Prod.snd

def getAll : List Contributor := s.getAllRegistered.filter fun c => decide (c.ns ∉ s.disabled)

/-- `feed`: a contributor is given the entries of a channel. A channel that is disposed of has none. -/
def feed (b : Subscription) : Service :=
  if (b.ns, b.session) ∈ s.disposed then s
  else { s with received := s.received ++ [(b.contributor, b.session.vault)] }

def changed (ns : Text) (session : Session) : Service :=
  (s.subscriptions.filter fun b => decide (b.ns = ns) && decide (b.session = session)).foldl feed s

def openChannel (session : Session) (c : Contributor) : Service :=
  let b : Subscription := ⟨c.ns, session, c⟩
  { s with
    channels := s.channels.set c.ns session
    subscriptions := s.subscriptions ++ [b] : Service }.feed b

def openChannels (session : Session) : Service :=
  (s.getAllRegistered.filter fun c => c.isShared).foldl (fun s c => s.openChannel session c) s

def closeChannels : Service :=
  { s with subscriptions := [], disposed := s.disposed ++ s.channels.entries, channels := .empty }

/-- `restoreLocal`, up to the next snapshot to load. -/
def restoreNext : List Contributor → Stage
  | [] => .opening
  | c :: rest => if c.isShared then restoreNext rest else .loading c s.storage rest

def switchVault (vault : Text) : Service :=
  let s' : Service := { s.closeChannels with storage := vault, vault, expected := [] : Service }.rebuild
  { s' with switches := s.switches ++ [⟨vault, s'.restoreNext s'.getAllRegistered⟩] }

/-- `channel.set`: nothing is written in a channel that is disposed of. -/
def setEntries (ns : Text) (session : Session) (source : Text) : Service :=
  if (ns, session) ∈ s.disposed then s
  else { s with writes := s.writes ++ [⟨session.vault, [source]⟩] : Service }.changed ns session

def saveSnapshot (c : Contributor) : Service :=
  { s with writes := s.writes ++ [⟨s.storage, (s.received.filter fun r => r.1 = c).map Prod.snd⟩] }

/-- `indexDocument`, up to the next snapshot to save, and what remains then. -/
def indexDocument (source : Text) : List Contributor → Service → Service × Option (List Contributor)
  | [], s => (s, none)
  | c :: rest, s =>
    if c.isShared then
      indexDocument source rest ((s.channels.get c.ns).elim s fun session => s.setEntries c.ns session source)
    else
      ({ s with received := s.received ++ [(c, source)] : Service }.saveSnapshot c, some rest)

/-- A pass goes on, and waits again unless it has ended. -/
def runPass (source : Text) (contributors : List Contributor) : Service :=
  match indexDocument source contributors s with
  | (s', none) => s'
  | (s', some rest) => { s' with passes := s'.passes ++ [⟨source, rest⟩] }

def forgetDocument : Service := s.channels.entries.foldl (fun s p => s.changed p.1 p.2) s

end Service

inductive Event
  | registerFactory (ns : Text) (isShared : Bool)
  | setDisabled (namespaces : List Text)
  | switchVault (vault : Text)
  /-- A snapshot has been loaded; `saved` says whether there is one. -/
  | loaded (k : Nat) (saved : Bool)
  | loadFailed (k : Nat)
  /-- The end of a change of vault, with the session that `getSession` gives. -/
  | opened (k : Nat) (session : Option Session)
  | index
  /-- The end of the saving of a snapshot. -/
  | saved (k : Nat) (ok : Bool)
  | forget
  | remote (ns : Text) (session : Session)
  deriving DecidableEq

def step (s : Service) : Event → Option Service
  | .registerFactory ns isShared => some (s.registerFactory ns isShared)
  | .setDisabled namespaces => some { s with disabled := namespaces }
  | .switchVault vault => some (s.switchVault vault)
  | .loaded k saved => match s.switches[k]? with
    | some ⟨vault, .loading c from_ rest⟩ =>
      some { s with
        received := if saved then s.received ++ [(c, from_)] else s.received
        switches := s.switches.set k ⟨vault, s.restoreNext rest⟩ }
    | _ => none
  | .loadFailed k => match s.switches[k]? with
    | some ⟨_, .loading ..⟩ => some { s with switches := s.switches.eraseIdx k }
    | _ => none
  | .opened k session => match s.switches[k]? with
    | some ⟨vault, .opening⟩ =>
      let s' : Service := { s with switches := s.switches.eraseIdx k }
      match session with
      | none => some s'
      | some session =>
        -- the session is that of the vault switched to
        if session.vault = vault then
          let expected := (s.getAllRegistered.filter fun c => c.isShared).map fun c => (c.ns, session)
          some ({ s' with expected := if vault = s.vault then expected else s.expected : Service }.openChannels session)
        else none
    | _ => none
  | .index => some (s.runPass s.vault s.getAll)
  | .saved k ok => match s.passes[k]? with
    | some ⟨source, rest⟩ =>
      let s' : Service := { s with passes := s.passes.eraseIdx k }
      some (if ok then s'.runPass source rest else s')
    | none => none
  | .forget => some s.forgetDocument
  | .remote ns session => some (s.changed ns session)

def start (vault : Text) : Service :=
  ⟨vault, vault, 0, .empty, .empty, [], .empty, [], [], [], [], [], [], []⟩

/-- A change of vault begins once the last one has ended and no document is between two contributors, and it is
given a session of which no channel has been closed. -/
def Clear (s : Service) : Event → Prop
  | .switchVault _ => s.switches = [] ∧ ∀ p ∈ s.passes, p.rest = []
  | .opened _ (some session) => ∀ p ∈ s.disposed, p.2 ≠ session
  | _ => True

structure Separated (s : Service) : Prop where
  writes : ∀ w ∈ s.writes, ∀ v ∈ w.sources, v = w.vault
  received : ∀ c v v', (c, v) ∈ s.received → (c, v') ∈ s.received → v = v'
  channels : s.switches = [] → s.channels.entries = s.expected ∧ (s.expected.map Prod.fst).Nodup ∧
    s.subscriptions.map (fun b => (b.ns, b.session)) = s.expected ∧
    ∀ p ∈ s.expected, p.2.vault = s.vault ∧ p ∉ s.disposed

end Savoire.ContentIndexing
