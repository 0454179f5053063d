import Savoire.Library.KeyedMap
import Savoire.Library.Transition
import Savoire.Text

/-! The accounts that an application keeps, and the renewal of their tokens by an identity provider that accepts
each refresh token once. -/
namespace Savoire.Accounts
open Transition

/-- A refresh token. The application never reads whose it is. -/
structure Token where
  userId : Text
  serial : Nat
  deriving DecidableEq

structure AccountEntry where
  userId : Text
  refreshToken : Token
  isActive : Bool
  deriving DecidableEq

/-- What the provider decides on a request. -/
inductive Reply
  | accept | refuse | fail
  deriving DecidableEq

inductive Answer
  | ok (refreshToken : Token)
  | refused
  /-- A network or server error. -/
  | failed
  deriving DecidableEq

def Answer.isFinal : Answer → Bool
  | .failed => false
  | .ok _ | .refused => true

inductive Waiter
  | renewal (userId : Text)
  | switch (userId : Text) (stored : List AccountEntry)
  deriving DecidableEq

def Waiter.userId : Waiter → Text
  | .renewal userId | .switch userId _ => userId

/-- `inFlight` holds the requests by their token, with the answer once the provider has given it; `delivering` is
the answer whose waiters go on, before any other task. `logouts` lists the accounts that a log-out under way was
called for. The other fields are records: `accounts` has the accounts that are logged in, each with the last token
issued, `spent` the tokens that the provider has answered for good, `sent` and `failed` the requests. -/
structure Session where
  stored : List AccountEntry
  renewing : Bool
  inFlight : KeyedMap Token (Option Answer)
  waiting : List (Token × Waiter)
  delivering : Option (Token × Answer)
  logouts : List Text
  accounts : List (Text × Token)
  serial : Nat
  spent : List Token
  sent : List Token
  failed : List Token

namespace Session
variable (s : Session)

def refreshOnce (token : Token) (w : Waiter) : Session :=
  match s.inFlight.get token with
  | some _ => { s with waiting := s.waiting ++ [(token, w)] }
  | none =>
    { s with
      inFlight := s.inFlight.set token none
      waiting := s.waiting ++ [(token, w)]
      sent := s.sent ++ [token] }

def renew : Session :=
  if s.renewing then s
  else match s.stored.find? fun a => a.isActive with
    | none => s
    | some active => { s with renewing := true : Session }.refreshOnce active.refreshToken (.renewal active.userId)

def switchAccount (userId : Text) : Session :=
  match s.stored.find? fun a => decide (a.userId = userId) with
  | none => s
  | some target => s.refreshOnce target.refreshToken (.switch userId s.stored)

def withToken (userId : Text) (refreshToken : Token) (a : AccountEntry) : AccountEntry :=
  if a.userId = userId then { a with refreshToken } else a

/-- What follows the answer, in `run` and in `switchAccount`. -/
def goOn (answer : Answer) : Waiter → Session
  | .renewal userId =>
    let s' : Session := { s with renewing := false }
    match answer with
    | .failed => s'
    | .refused => { s' with stored := s.stored.filter fun a => decide (a.userId ≠ userId) }
    | .ok refreshToken => { s' with stored := s.stored.map (withToken userId refreshToken) }
  | .switch userId stored => match answer with
    | .failed => s
    | .refused => { s with stored := stored.filter fun a => decide (a.userId ≠ userId) }
    | .ok refreshToken =>
      { s with
        stored := stored.map fun a => { withToken userId refreshToken a with isActive := decide (a.userId = userId) } }

/-- `accountsAfterLogin` -/
def accountsAfterLogin (existing : List AccountEntry) (entry : AccountEntry) (single : Bool) : List AccountEntry :=
  if single then [entry]
  else (existing.map fun a => { a with isActive := false }).filter (fun a => decide (a.userId ≠ entry.userId)) ++
    [entry]

/-- `acceptLogin` -/
def acceptLogin (single : Bool) (userId : Text) : Session :=
  let token : Token := ⟨userId, s.serial⟩
  { s with
    stored := accountsAfterLogin s.stored ⟨userId, token, true⟩ single
    accounts := (if single then [] else s.accounts.filter fun p => decide (p.1 ≠ userId)) ++ [(userId, token)]
    serial := s.serial + 1 }

def removeActive : Session := { s with stored := s.stored.filter fun a => !a.isActive }

/-- `logout`; `asks` says whether there is an access token with which to tell the provider. -/
def logout (asks : Bool) : Session :=
  match s.stored.find? fun a => a.isActive with
  | none => s.removeActive
  | some current =>
    let s' : Session := { s with accounts := s.accounts.filter fun p => decide (p.1 ≠ current.userId) }
    if asks then { s' with logouts := s.logouts ++ [current.userId] } else s'.removeActive

/-- The provider answers a request. -/
def answered (token : Token) : Reply → Session
  | .fail =>
    { s with inFlight := s.inFlight.set token (some .failed), failed := s.failed ++ [token] }
  | .refuse =>
    { s with
      inFlight := s.inFlight.set token (some .refused)
      accounts := s.accounts.filter fun p => decide (p.2 ≠ token)
      spent := s.spent ++ [token] }
  | .accept =>
    let next : Token := ⟨token.userId, s.serial⟩
    { s with
      inFlight := s.inFlight.set token (some (.ok next))
      accounts := s.accounts.map fun p => if p.2 = token then (p.1, next) else p
      spent := s.spent ++ [token]
      serial := s.serial + 1 }

/-- The first of the waiters for a token, and the others. -/
def nextWaiter (token : Token) : Option (Waiter × List (Token × Waiter)) :=
  (s.waiting.find? fun w => decide (w.1 = token)).map fun w => (w.2, s.waiting.erase w)

end Session

inductive Event
  | renew
  | switchAccount (userId : Text)
  | login (userId : Text)
  | logout (asks : Bool)
  | logoutDone (k : Nat)
  | answer (token : Token) (reply : Reply)
  | arrive (token : Token)
  | resume
  deriving DecidableEq

def step (single : Bool) (s : Session) : Event → Option Session
  | .answer token reply =>
    if s.inFlight.get token = some none ∧ (reply = .accept → token ∉ s.spent) then some (s.answered token reply)
    else none
  | .resume => match s.delivering with
    | none => none
    | some (token, answer) => match s.nextWaiter token with
      | none => some { s with delivering := none }
      | some (w, waiting) => some ({ s with waiting : Session }.goOn answer w)
  | event =>
    if s.delivering.isSome then none
    else match event with
      | .renew => some s.renew
      | .switchAccount userId => some (s.switchAccount userId)
      | .login userId => some (s.acceptLogin single userId)
      | .logout asks => some (s.logout asks)
      | .logoutDone k => match s.logouts[k]? with
        | none => none
        | some _ => some { s with logouts := s.logouts.eraseIdx k : Session }.removeActive
      | .arrive token => match s.inFlight.get token with
        | some (some answer) =>
          some { s with inFlight := s.inFlight.delete token, delivering := some (token, answer) }
        | _ => none
      | _ => none

def start : Session := ⟨[], false, .empty, [], none, [], [], 0, [], [], []⟩

def pairs (l : List AccountEntry) : List (Text × Token) := l.map fun a => (a.userId, a.refreshToken)

/-- Since the request, the account has not logged in again; for a change of account, it is still kept, and the
others have the tokens that were read. -/
def Session.Undisturbed (s : Session) (token : Token) (answer : Answer) : Waiter → Prop
  | .renewal userId => ∀ a ∈ s.stored, a.userId = userId → a.refreshToken = token ∨ answer = .ok a.refreshToken
  | .switch userId stored =>
    (∀ a ∈ s.stored, a.userId = userId → a.refreshToken = token ∨ answer = .ok a.refreshToken) ∧
      (answer ≠ .refused → userId ∈ s.stored.map AccountEntry.userId) ∧
      (pairs s.stored).filter (fun p => decide (p.1 ≠ userId)) =
        (pairs stored).filter fun p => decide (p.1 ≠ userId)

/-- What an answer and the end of a log-out write is not out of date. -/
def Clear (s : Session) : Event → Prop
  | .resume => ∀ d ∈ s.delivering, d.2.isFinal = true → ∀ w ∈ s.nextWaiter d.1, s.Undisturbed d.1 d.2 w.1
  | .logoutDone k => ∀ userId ∈ s.logouts[k]?,
    (∀ a ∈ s.stored, a.isActive = true ↔ a.userId = userId) ∧ userId ∉ s.accounts.map Prod.fst
  | _ => True

def Quiet (s : Session) : Prop := s.inFlight.entries = [] ∧ s.delivering = none ∧ s.logouts = []

structure Kept (s : Session) : Prop where
  tokens : ∀ userId token,
    (∃ a ∈ s.stored, a.userId = userId ∧ a.refreshToken = token) ↔ (userId, token) ∈ s.accounts
  once : (s.stored.map AccountEntry.userId).Nodup
  active : ∀ a ∈ s.stored, ∀ b ∈ s.stored, a.isActive = true → b.isActive = true → a = b

instance (s : Session) (token : Token) (answer : Answer) : DecidablePred (s.Undisturbed token answer)
  | .renewal userId => inferInstanceAs (Decidable (∀ a ∈ s.stored, a.userId = userId → _ ∨ _))
  | .switch userId _ => inferInstanceAs (Decidable ((∀ a ∈ s.stored, a.userId = userId → _ ∨ _) ∧ (_ → _) ∧ _))

instance (s : Session) : DecidablePred (Clear s)
  | .resume => inferInstanceAs (Decidable
      (∀ d ∈ s.delivering, d.2.isFinal = true → ∀ w ∈ s.nextWaiter d.1, s.Undisturbed d.1 d.2 w.1))
  | .logoutDone k => inferInstanceAs (Decidable (∀ userId ∈ s.logouts[k]?, (∀ a ∈ s.stored, _ ↔ _) ∧ _))
  | .renew | .switchAccount _ | .login _ | .logout _ | .answer .. | .arrive _ => isTrue trivial

end Savoire.Accounts
