import Savoire.Indexer.ResultCache
import Savoire.Library.Transition

/-! The calls that the indexer serves from its cache. The main thread keeps the generation of each index;
the shards that hold the indexes count it, each from zero. -/
namespace Savoire.Indexer
open Transition ResultCache

/-- `state` is the place in the history of the index at which the shard wrote or answered: it is no part of
the message. -/
structure Answer where
  json : Text
  gen : Nat
  state : Nat

inductive FromShard
  | gen (vaultId : Text) (gen : Nat) (state : Nat)
  | reply (id : Nat) (value : Option Answer)

structure PendingCall where
  request : Request
  useCache : Bool
  waiting : Bool

structure Slot where
  alive : Bool
  pending : KeyedMap Nat PendingCall
  /-- The calls that the shard has not answered. -/
  queue : List Nat
  /-- The messages on their way to the main thread. -/
  out : List FromShard

structure Pool (ι : Type*) where
  slots : Nat → Slot
  nextId : Nat
  gens : Text → Option Nat
  cache : ResultCache
  now : Nat
  /-- The generation of each vault that a shard has in memory. -/
  vaults : Text → Option Nat
  index : Text → ι
  /-- The states that an index had before. -/
  past : Text → List ι
  /-- The state of an index that the last generation received announced. -/
  seen : Text → Nat

inductive PoolEvent (ι : Type*)
  | arrive (r : Request) (useCache : Bool)
  | abandon (i id : Nat)
  | execute (i id : Nat)
  | refuse (i id : Nat)
  | create (v : Text)
  | write (v : Text) (state : ι)
  | drift (v : Text) (state : ι)
  | delete (v : Text) (state : ι)
  | deliver (i : Nat)
  | crash (i : Nat)
  | restart (i : Nat)
  | tick (ms : Nat)

structure Setting (ι : Type*) where
  shardOf : Text → Nat
  perShardQueue : Nat
  /-- What a call on an index in this state gives. -/
  answer : ι → Request → Text

variable {ι : Type*}

namespace Pool

def setSlot (s : Pool ι) (i : Nat) (slot : Slot) : Pool ι :=
  { s with slots := Function.update s.slots i slot }

/-- Every state that an index had, the present one last. -/
def states (s : Pool ι) (v : Text) : List ι := s.past v ++ [s.index v]

def become (s : Pool ι) (v : Text) (state : ι) : Pool ι :=
  { s with index := Function.update s.index v state
           past := Function.update s.past v (s.states v) }

/-- `bump`: one generation more, and a message that says so. -/
def bump (s : Pool ι) (i : Nat) (v : Text) (gen : Nat) : Pool ι :=
  let slot := s.slots i
  { s.setSlot i { slot with out := slot.out ++ [.gen v (gen + 1) (s.past v).length] } with
    vaults := Function.update s.vaults v (some (gen + 1)) }

/-- An answer raises the generation of its vault. -/
def raiseGen (gens : Text → Option Nat) (v : Text) (gen : Nat) : Text → Option Nat :=
  match gens v with
  | none => Function.update gens v (some gen)
  | some g => if g < gen then Function.update gens v (some gen) else gens

/-- `receive`, and what the waiting `callCached` does with the value. -/
def receive (s : Pool ι) (i : Nat) : FromShard → Pool ι
  | .gen v gen state =>
      { s with gens := Function.update s.gens v (some gen), seen := Function.update s.seen v state }
  | .reply id value =>
      match (s.slots i).pending.get id with
      | none => s
      | some p =>
        let s := s.setSlot i { s.slots i with pending := (s.slots i).pending.delete id }
        match p.waiting, value with
        | true, some a =>
            let v := p.request.vaultId
            { s with
              gens := raiseGen s.gens v a.gen
              cache := if p.useCache then s.cache.set (key p.request) v a.gen a.json s.now else s.cache }
        | _, _ => s

end Pool

def Pool.step (c : Setting ι) (s : Pool ι) : PoolEvent ι → Option (Pool ι)
  | .arrive r useCache =>
      let i := c.shardOf r.vaultId
      let slot := s.slots i
      let (hit, cache) := if useCache then s.cache.get (key r) (s.gens r.vaultId) s.now else (none, s.cache)
      let s := { s with cache := cache }
      if hit.isSome || c.perShardQueue ≤ slot.pending.entries.length || !slot.alive then some s
      else some { s.setSlot i { slot with
          pending := slot.pending.set s.nextId ⟨r, useCache, true⟩
          queue := slot.queue ++ [s.nextId] } with nextId := s.nextId + 1 }
  | .abandon i id =>
      let slot := s.slots i
      match slot.pending.get id with
      | none => none
      | some p => some (s.setSlot i { slot with pending := slot.pending.set id { p with waiting := false } })
  | .execute i id =>
      let slot := s.slots i
      if id ∈ slot.queue then
        match slot.pending.get id with
        | none => none
        | some p =>
          match s.vaults p.request.vaultId with
          | none => none
          | some gen =>
            let v := p.request.vaultId
            some (s.setSlot i { slot with
              queue := slot.queue.erase id
              out := slot.out ++ [.reply id (some ⟨c.answer (s.index v) p.request, gen, (s.past v).length⟩)] })
      else none
  | .refuse i id =>
      let slot := s.slots i
      if id ∈ slot.queue ∧ (slot.pending.get id).isSome then
        some (s.setSlot i { slot with queue := slot.queue.erase id, out := slot.out ++ [.reply id none] })
      else none
  | .create v =>
      if (s.slots (c.shardOf v)).alive && (s.vaults v).isNone then
        some { s with vaults := Function.update s.vaults v (some 0) }
      else none
  | .write v state =>
      match s.vaults v with
      | none => none
      | some gen => some ((s.become v state).bump (c.shardOf v) v gen)
  | .drift v state => some (s.become v state)
  | .delete v state =>
      match s.vaults v with
      | none => none
      | some gen =>
        let s := (s.become v state).bump (c.shardOf v) v gen
        some { s with vaults := Function.update s.vaults v none }
  | .deliver i =>
      let slot := s.slots i
      match slot.out with
      | [] => none
      | m :: rest => some ((s.setSlot i { slot with out := rest }).receive i m)
  | .crash i =>
      if (s.slots i).alive then
        some { s.setSlot i ⟨false, .empty, [], []⟩ with
          vaults := fun v => if c.shardOf v = i then none else s.vaults v }
      else none
  | .restart i =>
      let slot := s.slots i
      if slot.alive then none else some (s.setSlot i { slot with alive := true })
  | .tick ms => some { s with now := s.now + ms }

/-- Nothing has been called yet; the indexes are as the shards find them. -/
def Pool.start (cache : ResultCache) (index : Text → ι) : Pool ι where
  slots _ := ⟨true, .empty, [], []⟩
  nextId := 1
  gens _ := none
  cache := { cache with map := .empty }
  now := 0
  vaults _ := none
  index := index
  past _ := []
  seen _ := 0

/-- Whatever the cache answers, a call gave it on the index as it was in the state that the last generation
received announced, or in a later one. -/
def Pool.AnswersFresh (c : Setting ι) (s : Pool ι) : Prop :=
  ∀ r json, (s.cache.get (key r) (s.gens r.vaultId) s.now).1 = some json →
    ∃ n state, s.seen r.vaultId ≤ n ∧ (s.states r.vaultId)[n]? = some state ∧ json = c.answer state r

/-- A generation that arrives is not that of an entry which has not expired. -/
def Pool.NewHead (s : Pool ι) : List FromShard → Prop
  | .gen v gen _ :: _ => ∀ e ∈ s.cache.map.entries, e.2.vaultId = v → e.2.gen = gen →
      s.cache.ttlMs < s.now - e.2.storedAt
  | _ => True

def Pool.NewNumber (s : Pool ι) : PoolEvent ι → Prop
  | .deliver i => s.NewHead (s.slots i).out
  | _ => True

instance (s : Pool ι) (out : List FromShard) : Decidable (s.NewHead out) :=
  match out with
  | .gen _ _ _ :: _ => inferInstanceAs (Decidable (∀ e ∈ s.cache.map.entries, _))
  | .reply _ _ :: _ => .isTrue trivial
  | [] => .isTrue trivial

instance (s : Pool ι) (e : PoolEvent ι) : Decidable (s.NewNumber e) :=
  match e with
  | .deliver i => inferInstanceAs (Decidable (s.NewHead (s.slots i).out))
  | .arrive _ _ | .abandon _ _ | .execute _ _ | .refuse _ _ | .create _ | .write _ _ | .drift _ _ | .delete _ _
  | .crash _ | .restart _ | .tick _ => .isTrue trivial

/-- Each answer on its way is of a vault that has counted nothing yet, or of the generation that the last
message before it announced; `last` is that generation and its state. -/
def linkOK (pending : KeyedMap Nat PendingCall) (v : Text) : Option (Nat × Nat) → List FromShard → Prop
  | _, [] => True
  | last, .gen w gen state :: rest =>
      (w = v → 0 < gen) ∧ linkOK pending v (if w = v then some (gen, state) else last) rest
  | last, .reply id value :: rest =>
      (∀ a p, value = some a → pending.get id = some p → p.request.vaultId = v →
        a.gen = 0 ∨ ∃ n ≤ a.state, last = some (a.gen, n)) ∧ linkOK pending v last rest

/-- The generation that the last message announces. -/
def lastGen (v : Text) : Option (Nat × Nat) → List FromShard → Option (Nat × Nat)
  | last, [] => last
  | last, .gen w gen state :: rest => lastGen v (if w = v then some (gen, state) else last) rest
  | last, .reply _ _ :: rest => lastGen v last rest

section Link
variable {pending pending' : KeyedMap Nat PendingCall} {v w : Text} {last : Option (Nat × Nat)}
  {out : List FromShard} {m : FromShard}

theorem linkOK_append : linkOK pending v last (out ++ [m]) ↔
    linkOK pending v last out ∧ linkOK pending v (lastGen v last out) [m] := by
  induction out generalizing last with
  | nil => simp [linkOK, lastGen]
  | cons x out ih =>
    cases x with
    | gen w gen state => rw [List.cons_append, linkOK, linkOK, lastGen, ih, and_assoc]
    | reply id value => rw [List.cons_append, linkOK, linkOK, lastGen, ih, and_assoc]

theorem lastGen_append : lastGen v last (out ++ [m]) = lastGen v (lastGen v last out) [m] := by
  induction out generalizing last with
  | nil => rfl
  | cons x out ih => cases x <;> rw [List.cons_append, lastGen, lastGen, ih]

theorem linkOK.congr (h : linkOK pending v last out)
    (hsame : ∀ id value p', .reply id value ∈ out → pending'.get id = some p' →
      ∃ p, pending.get id = some p ∧ p.request = p'.request) : linkOK pending' v last out := by
  induction out generalizing last with
  | nil => trivial
  | cons x out ih =>
    have hrest := fun id value p' hmem => hsame id value p' (List.mem_cons_of_mem x hmem)
    cases x with
    | gen w gen state => exact ⟨h.1, ih h.2 hrest⟩
    | reply id value =>
      refine ⟨fun a p' ha hp' hv => ?_, ih h.2 hrest⟩
      obtain ⟨p, hp, heq⟩ := hsame id value p' List.mem_cons_self hp'
      exact h.1 a p ha hp (heq ▸ hv)

theorem linkOK.of_none (h : linkOK pending v none out) : linkOK pending v last out := by
  induction out with
  | nil => trivial
  | cons x out ih =>
    cases x with
    | gen w gen state =>
      by_cases hw : w = v
      · simpa only [linkOK, if_pos hw] using h
      · simp only [linkOK, if_neg hw] at h ⊢
        exact ⟨h.1, ih h.2⟩
    | reply id value =>
      refine ⟨fun a p ha hp hv => (h.1 a p ha hp hv).imp_right ?_, ih h.2⟩
      rintro ⟨n, -, hnone⟩
      cases hnone

theorem lastGen_of_none {x : Nat × Nat} (h : lastGen v none out = some x) : lastGen v last out = some x := by
  induction out with
  | nil => cases h
  | cons y out ih =>
    cases y with
    | gen w gen state =>
      by_cases hw : w = v
      · simpa only [lastGen, if_pos hw] using h
      · simp only [lastGen, if_neg hw] at h ⊢
        exact ih h
    | reply id value => exact ih h

end Link

namespace Pool
variable {c : Setting ι} {s : Pool ι} {i j : Nat} {v w : Text} {state : ι} {slot : Slot}

@[simp] theorem setSlot_same : (s.setSlot i slot).slots i = slot := Function.update_self ..

@[simp] theorem setSlot_ne (h : j ≠ i) : (s.setSlot i slot).slots j = s.slots j := Function.update_of_ne h ..

theorem pending_setSlot (h : slot.pending = (s.slots i).pending) (j : Nat) :
    ((s.setSlot i slot).slots j).pending = (s.slots j).pending := by
  by_cases hj : j = i
  · subst hj
    rw [setSlot_same, h]
  · rw [setSlot_ne hj]

theorem mem_out_setSlot (h : ∀ m ∈ slot.out, m ∈ (s.slots i).out) {m : FromShard}
    (hm : m ∈ ((s.setSlot i slot).slots j).out) : m ∈ (s.slots j).out := by
  by_cases hj : j = i
  · subst hj
    rw [setSlot_same] at hm
    exact h m hm
  · exact setSlot_ne hj ▸ hm

@[simp] theorem setSlot_gens : (s.setSlot i slot).gens = s.gens := rfl
@[simp] theorem setSlot_seen : (s.setSlot i slot).seen = s.seen := rfl

/-- What the main thread knows of a vault: its generation, and the state that it announced. -/
def known (s : Pool ι) (v : Text) : Option (Nat × Nat) := (s.gens v).map (·, s.seen v)

theorem states_become : (s.become v state).states w =
    if w = v then s.states v ++ [state] else s.states w := by
  by_cases hw : w = v
  · subst hw
    simp [states, become]
  · simp [states, become, hw]

theorem getElem?_become {n : Nat} {x : ι} (h : (s.states w)[n]? = some x) :
    ((s.become v state).states w)[n]? = some x := by
  rw [states_become]
  split
  · rename_i hw
    subst hw
    rw [List.getElem?_append_left (List.getElem?_eq_some_iff.mp h).1, h]
  · exact h

theorem length_past_le : (s.past w).length ≤ ((s.become v state).past w).length := by
  by_cases hw : w = v
  · subst hw
    simp [become, states]
  · simp [become, hw]

theorem getElem?_states_past : (s.states v)[(s.past v).length]? = some (s.index v) := by
  simp [states]

/-- The request was answered on the `n`-th state of its index. -/
def Answered (c : Setting ι) (s : Pool ι) (r : Request) (json : Text) (n : Nat) : Prop :=
  ∃ state, (s.states r.vaultId)[n]? = some state ∧ json = c.answer state r

structure EntryOK (c : Setting ι) (s : Pool ι) (e : Text × CacheEntry) (r : Request) (n : Nat) : Prop where
  key : e.1 = key r
  vault : e.2.vaultId = r.vaultId
  answered : Answered c s r e.2.json n
  known : s.gens r.vaultId ≠ none
  fresh : s.now - e.2.storedAt ≤ s.cache.ttlMs → s.gens r.vaultId = some e.2.gen → s.seen r.vaultId ≤ n

/-- The invariant of the runs in which every number that arrives is new. -/
structure Inv (c : Setting ι) (s : Pool ι) : Prop where
  calls : ∀ i id p, (s.slots i).pending.get id = some p → id < s.nextId ∧ c.shardOf p.request.vaultId = i
  replies : ∀ i id value, .reply id value ∈ (s.slots i).out → id < s.nextId
  routed : ∀ i v gen state, .gen v gen state ∈ (s.slots i).out → c.shardOf v = i
  answers : ∀ i id a p, .reply id (some a) ∈ (s.slots i).out → (s.slots i).pending.get id = some p →
    Answered c s p.request a.json a.state
  link : ∀ v, linkOK (s.slots (c.shardOf v)).pending v (s.known v) (s.slots (c.shardOf v)).out
  count : ∀ v gen, s.vaults v = some gen → gen = 0 ∨
    ∃ n ≤ (s.past v).length, lastGen v (s.known v) (s.slots (c.shardOf v)).out = some (gen, n)
  unseen : ∀ v, s.gens v = none ∨ s.gens v = some 0 → s.seen v = 0
  entries : ∀ e ∈ s.cache.map.entries, ∃ r n, EntryOK c s e r n

section
variable (h : Inv c s)
include h

theorem Inv.setPending {next : Nat} (hnext : s.nextId ≤ next) (hout : slot.out = (s.slots i).out)
    (hpending : ∀ id p', slot.pending.get id = some p' →
      (∃ p, (s.slots i).pending.get id = some p ∧ p.request = p'.request) ∨
      (s.nextId ≤ id ∧ id < next ∧ c.shardOf p'.request.vaultId = i)) :
    Inv c { s.setSlot i slot with nextId := next } := by
  have hkept : ∀ id value p', .reply id value ∈ (s.slots i).out → slot.pending.get id = some p' →
      ∃ p, (s.slots i).pending.get id = some p ∧ p.request = p'.request := by
    intro id value p' hmem hp'
    refine (hpending id p' hp').resolve_right fun hnew => ?_
    have := h.replies i id value hmem
    omega
  have hslot : ∀ j, ((s.setSlot i slot).slots j).out = (s.slots j).out := by
    intro j
    by_cases hj : j = i
    · subst hj
      rw [setSlot_same, hout]
    · rw [setSlot_ne hj]
  refine ⟨fun j id p' hp' => ?_, fun j id value hmem => ?_, fun j v gen n hmem => ?_,
    fun j id a p' hmem hp' => ?_, fun v => ?_, fun v gen hgen => ?_, h.unseen, fun e he => ?_⟩
  · by_cases hj : j = i
    · subst hj
      rw [setSlot_same] at hp'
      obtain ⟨p, hp, heq⟩ | ⟨-, hlt, hshard⟩ := hpending id p' hp'
      · obtain ⟨hlt, hshard⟩ := h.calls j id p hp
        exact ⟨lt_of_lt_of_le hlt hnext, heq ▸ hshard⟩
      · exact ⟨hlt, hshard⟩
    · rw [setSlot_ne hj] at hp'
      obtain ⟨hlt, hshard⟩ := h.calls j id p' hp'
      exact ⟨lt_of_lt_of_le hlt hnext, hshard⟩
  · exact lt_of_lt_of_le (h.replies j id value ((hslot j) ▸ hmem)) hnext
  · exact h.routed j v gen n ((hslot j) ▸ hmem)
  · rw [hslot] at hmem
    by_cases hj : j = i
    · subst hj
      rw [setSlot_same] at hp'
      obtain ⟨p, hp, heq⟩ := hkept id (some a) p' hmem hp'
      exact heq ▸ h.answers j id a p hmem hp
    · rw [setSlot_ne hj] at hp'
      exact h.answers j id a p' hmem hp'
  · rw [hslot]
    by_cases hj : c.shardOf v = i
    · rw [hj, setSlot_same]
      exact (hj ▸ h.link v).congr hkept
    · rw [setSlot_ne hj]
      exact h.link v
  · have := h.count v gen hgen
    rw [hslot]
    exact this
  · obtain ⟨r, n, hkey, hvault, hanswered, hknown, hfresh⟩ := h.entries e he
    exact ⟨r, n, hkey, hvault, hanswered, hknown, hfresh⟩

theorem Inv.setCache {cache : ResultCache}
    (hentries : ∀ e ∈ cache.map.entries, ∃ r n, EntryOK c { s with cache := cache } e r n) :
    Inv c { s with cache := cache } :=
  ⟨h.calls, h.replies, h.routed, h.answers, h.link, h.count, h.unseen, hentries⟩

theorem Inv.readCache (k : Text) (gen : Option Nat) :
    Inv c { s with cache := (s.cache.get k gen s.now).2 } := by
  refine h.setCache fun e he => ?_
  obtain ⟨r, n, hkey, hvault, hanswered, hknown, hfresh⟩ := h.entries e (mem_get he)
  exact ⟨r, n, hkey, hvault, hanswered, hknown, by simpa using hfresh⟩

theorem Inv.tick (ms : Nat) : Inv c { s with now := s.now + ms } := by
  refine ⟨h.calls, h.replies, h.routed, h.answers, h.link, h.count, h.unseen, fun e he => ?_⟩
  obtain ⟨r, n, hkey, hvault, hanswered, hknown, hfresh⟩ := h.entries e he
  refine ⟨r, n, hkey, hvault, hanswered, hknown, fun htime hgen => hfresh ?_ hgen⟩
  dsimp only at htime
  omega

theorem Inv.become (v : Text) (state : ι) : Inv c (s.become v state) where
  __ := h
  answers i id a p hmem hp := by
    obtain ⟨x, hx, hjson⟩ := h.answers i id a p hmem hp
    exact ⟨x, getElem?_become hx, hjson⟩
  count w gen hgen := by
    refine (h.count w gen hgen).imp_right ?_
    rintro ⟨n, hn, hlast⟩
    exact ⟨n, hn.trans length_past_le, hlast⟩
  entries e he := by
    obtain ⟨r, n, hkey, hvault, ⟨x, hx, hjson⟩, hknown, hfresh⟩ := h.entries e he
    exact ⟨r, n, hkey, hvault, ⟨x, getElem?_become hx, hjson⟩, hknown, hfresh⟩

theorem Inv.setVaults {vaults : Text → Option Nat}
    (hvaults : ∀ v gen, vaults v = some gen → gen = 0 ∨ s.vaults v = some gen) :
    Inv c { s with vaults := vaults } :=
  ⟨h.calls, h.replies, h.routed, h.answers, h.link,
    fun v gen hgen => (hvaults v gen hgen).elim .inl (h.count v gen), h.unseen, fun e he => by
      obtain ⟨r, n, hkey, hvault, hanswered, hknown, hfresh⟩ := h.entries e he
      exact ⟨r, n, hkey, hvault, hanswered, hknown, hfresh⟩⟩

theorem Inv.bump (v : Text) (gen : Nat) : Inv c (s.bump (c.shardOf v) v gen) := by
  have hout : ∀ j, j ≠ c.shardOf v → (s.bump (c.shardOf v) v gen).slots j = s.slots j :=
    fun j hj => setSlot_ne hj
  have hpending : ∀ j, ((s.bump (c.shardOf v) v gen).slots j).pending = (s.slots j).pending :=
    pending_setSlot rfl
  have hnew : ((s.bump (c.shardOf v) v gen).slots (c.shardOf v)).out =
      (s.slots (c.shardOf v)).out ++ [.gen v (gen + 1) (s.past v).length] := congrArg Slot.out setSlot_same
  have hmem : ∀ j m, m ∈ ((s.bump (c.shardOf v) v gen).slots j).out → m ∈ (s.slots j).out ∨
      j = c.shardOf v ∧ m = .gen v (gen + 1) (s.past v).length := by
    intro j m hm
    by_cases hj : j = c.shardOf v
    · subst hj
      rw [hnew, List.mem_append, List.mem_singleton] at hm
      exact hm.imp_right fun heq => ⟨rfl, heq⟩
    · exact .inl (hout j hj ▸ hm)
  have hshard : ∀ w, c.shardOf w = c.shardOf v →
      ((s.bump (c.shardOf v) v gen).slots (c.shardOf w)).out =
        (s.slots (c.shardOf w)).out ++ [.gen v (gen + 1) (s.past v).length] := fun w hw => by rw [hw, hnew]
  refine ⟨fun j id p hp => h.calls j id p (hpending j ▸ hp), fun j id value hm => ?_,
    fun j w g n hm => ?_, fun j id a p hm hp => ?_, fun w => ?_, fun w g hg => ?_, h.unseen, fun e he => ?_⟩
  · obtain hm | ⟨-, hm⟩ := hmem j _ hm
    · exact h.replies j id value hm
    · cases hm
  · obtain hold | ⟨hj, heq⟩ := hmem j _ hm
    · exact h.routed j w g n hold
    · obtain ⟨rfl, -, -⟩ := FromShard.gen.inj heq
      exact hj.symm
  · obtain hm | ⟨-, hm⟩ := hmem j _ hm
    · exact h.answers j id a p hm (hpending j ▸ hp)
    · cases hm
  · rw [hpending]
    by_cases hw : c.shardOf w = c.shardOf v
    · rw [hshard w hw]
      exact linkOK_append.mpr ⟨h.link w, fun _ => gen.succ_pos, trivial⟩
    · rw [hout _ hw]
      exact h.link w
  · by_cases hw : w = v
    · subst hw
      have hgen : gen + 1 = g := by simpa [Pool.bump] using hg
      refine .inr ⟨(s.past w).length, le_refl _, ?_⟩
      rw [hnew, lastGen_append]
      simp [lastGen, hgen]
    · have hold : s.vaults w = some g := by simpa [Pool.bump, hw] using hg
      refine (h.count w g hold).imp_right ?_
      rintro ⟨n, hn, hlast⟩
      refine ⟨n, hn, ?_⟩
      by_cases hshardw : c.shardOf w = c.shardOf v
      · rw [hshard w hshardw, lastGen_append]
        have hne : v ≠ w := fun heq => hw heq.symm
        simp only [lastGen, if_neg hne]
        exact hlast
      · rw [hout _ hshardw]
        exact hlast
  · obtain ⟨r, n, hkey, hvault, hanswered, hknown, hfresh⟩ := h.entries e he
    exact ⟨r, n, hkey, hvault, hanswered, hknown, hfresh⟩

end

variable {id : Nat} {value : Option Answer}

theorem Inv.reply (h : Inv c s) (hid : id < s.nextId) (hpending : slot.pending = (s.slots i).pending)
    (hout : slot.out = (s.slots i).out ++ [.reply id value])
    (hvalue : ∀ a p, value = some a → slot.pending.get id = some p →
      Answered c s p.request a.json a.state ∧ (a.gen = 0 ∨ ∃ n ≤ a.state,
        lastGen p.request.vaultId (s.known p.request.vaultId) (s.slots i).out = some (a.gen, n))) :
    Inv c (s.setSlot i slot) := by
  have hpendings := pending_setSlot hpending
  have hmem : ∀ j m, m ∈ ((s.setSlot i slot).slots j).out → m ∈ (s.slots j).out ∨
      j = i ∧ m = .reply id value := by
    intro j m hm
    by_cases hj : j = i
    · subst hj
      rw [setSlot_same, hout, List.mem_append, List.mem_singleton] at hm
      exact hm.imp_right fun heq => ⟨rfl, heq⟩
    · exact .inl (setSlot_ne hj ▸ hm)
  have hlast : ∀ j v last, lastGen v last ((s.setSlot i slot).slots j).out = lastGen v last (s.slots j).out := by
    intro j v last
    by_cases hj : j = i
    · subst hj
      rw [setSlot_same, hout, lastGen_append]
      rfl
    · rw [setSlot_ne hj]
  refine ⟨fun j id p hp => h.calls j id p (hpendings j ▸ hp), fun j id' value' hm => ?_,
    fun j w g n hm => ?_, fun j id' a p hm hp => ?_, fun w => ?_, fun w g hg => ?_, h.unseen, fun e he => ?_⟩
  · obtain hm | ⟨-, hm⟩ := hmem j _ hm
    · exact h.replies j id' value' hm
    · cases hm
      exact hid
  · obtain hm | ⟨-, hm⟩ := hmem j _ hm
    · exact h.routed j w g n hm
    · cases hm
  · rw [hpendings] at hp
    obtain hold | ⟨hj, heq⟩ := hmem j _ hm
    · exact h.answers j id' a p hold hp
    · obtain ⟨rfl, hsome⟩ := FromShard.reply.inj heq
      exact (hvalue a p hsome.symm (hpending ▸ hj ▸ hp)).1
  · rw [hpendings]
    by_cases hw : c.shardOf w = i
    · subst hw
      rw [setSlot_same, hout]
      refine linkOK_append.mpr ⟨h.link w, fun a p ha hp hv => ?_, trivial⟩
      obtain ⟨-, hgen⟩ := hvalue a p ha (hpending ▸ hp)
      exact hv ▸ hgen
    · rw [setSlot_ne hw]
      exact h.link w
  · refine (h.count w g hg).imp_right ?_
    rintro ⟨n, hn, hw⟩
    exact ⟨n, hn, (hlast _ w _).trans hw⟩
  · obtain ⟨r, n, hkey, hvault, hanswered, hknown, hfresh⟩ := h.entries e he
    exact ⟨r, n, hkey, hvault, hanswered, hknown, hfresh⟩

variable {rest : List FromShard}

theorem popped {m : FromShard} (hout : (s.slots i).out = m :: rest) :
    (∀ j m', m' ∈ ((s.setSlot i { s.slots i with out := rest }).slots j).out → m' ∈ (s.slots j).out) ∧
      ∀ j, ((s.setSlot i { s.slots i with out := rest }).slots j).pending = (s.slots j).pending :=
  ⟨fun _ _ hm => mem_out_setSlot (fun _ hm => hout ▸ List.mem_cons_of_mem _ hm) hm, pending_setSlot rfl⟩

/-- A generation arrives that no entry still has. -/
theorem Inv.receiveGen (h : Inv c s) {gen n : Nat} (hout : (s.slots i).out = .gen v gen n :: rest)
    (hnew : ∀ e ∈ s.cache.map.entries, e.2.vaultId = v → e.2.gen = gen → s.cache.ttlMs < s.now - e.2.storedAt) :
    Inv c ((s.setSlot i { s.slots i with out := rest }).receive i (.gen v gen n)) := by
  have hshard : c.shardOf v = i := h.routed i v gen n (hout ▸ List.mem_cons_self)
  obtain ⟨hmem, hpending⟩ := popped hout
  have hlink := hout ▸ hshard ▸ h.link v
  have hpos : 0 < gen := hlink.1 rfl
  refine ⟨fun j id p hp => h.calls j id p (hpending j ▸ hp),
    fun j id value hm => h.replies j id value (hmem j _ hm),
    fun j w g m hm => h.routed j w g m (hmem j _ hm),
    fun j id a p hm hp => h.answers j id a p (hmem j _ hm) (hpending j ▸ hp), fun w => ?_, fun w g hg => ?_,
    fun w hw => ?_, fun e he => ?_⟩
  · dsimp only [receive]
    by_cases hw : c.shardOf w = i
    · rw [hw, setSlot_same]
      have hlinkw := hout ▸ hw ▸ h.link w
      by_cases hwv : w = v
      · subst hwv
        simpa [known] using hlink.2
      · have hne : v ≠ w := fun heq => hwv heq.symm
        rw [linkOK, if_neg hne] at hlinkw
        simpa [known, hwv] using hlinkw.2
    · have hwv : w ≠ v := fun heq => hw (heq ▸ hshard)
      rw [setSlot_ne hw]
      simpa [known, hwv] using h.link w
  · refine (h.count w g hg).imp_right ?_
    rintro ⟨m, hm, hlast⟩
    refine ⟨m, hm, ?_⟩
    dsimp only [receive]
    by_cases hw : c.shardOf w = i
    · rw [hw, hout, lastGen] at hlast
      rw [hw, setSlot_same]
      by_cases hwv : w = v
      · subst hwv
        simpa [known] using hlast
      · have hne : v ≠ w := fun heq => hwv heq.symm
        rw [if_neg hne] at hlast
        simpa [known, hwv] using hlast
    · have hwv : w ≠ v := fun heq => hw (heq ▸ hshard)
      rw [setSlot_ne hw]
      simpa [known, hwv] using hlast
  · by_cases hwv : w = v
    · subst hwv
      simp only [receive, Function.update_self, reduceCtorEq, Option.some.injEq, false_or] at hw
      omega
    · simp only [receive, Function.update_of_ne hwv] at hw ⊢
      exact h.unseen w hw
  · obtain ⟨r, m, hkey, hvault, hanswered, hknown, hfresh⟩ := h.entries e he
    refine ⟨r, m, hkey, hvault, hanswered, ?_, fun htime hgen => ?_⟩
    · by_cases hr : r.vaultId = v
      · simp [receive, hr]
      · simpa [receive, hr] using hknown
    · by_cases hr : r.vaultId = v
      · have heq : gen = e.2.gen := by simpa [receive, hr] using hgen
        have hold : s.cache.ttlMs < s.now - e.2.storedAt := hnew e he (hvault.trans hr) heq.symm
        exact absurd htime (not_le.mpr hold)
      · simp only [receive, Function.update_of_ne hr] at hgen ⊢
        exact hfresh htime hgen

theorem Inv.dropReply (h : Inv c s) (hout : (s.slots i).out = .reply id value :: rest) :
    Inv c (s.setSlot i { s.slots i with out := rest }) := by
  obtain ⟨hmem, hpending⟩ := popped hout
  refine ⟨fun j id p hp => h.calls j id p (hpending j ▸ hp),
    fun j id value hm => h.replies j id value (hmem j _ hm),
    fun j w g m hm => h.routed j w g m (hmem j _ hm),
    fun j id a p hm hp => h.answers j id a p (hmem j _ hm) (hpending j ▸ hp), fun w => ?_, fun w g hg => ?_,
    h.unseen, fun e he => ?_⟩
  · by_cases hw : c.shardOf w = i
    · have hlink := h.link w
      rw [hw, hout, linkOK] at hlink
      rw [hw, setSlot_same]
      exact hlink.2
    · rw [setSlot_ne hw]
      exact h.link w
  · refine (h.count w g hg).imp_right ?_
    rintro ⟨m, hm, hlast⟩
    refine ⟨m, hm, ?_⟩
    by_cases hw : c.shardOf w = i
    · rw [hw, hout, lastGen] at hlast
      rw [hw, setSlot_same]
      exact hlast
    · rw [setSlot_ne hw]
      exact hlast
  · obtain ⟨r, n, hkey, hvault, hanswered, hknown, hfresh⟩ := h.entries e he
    exact ⟨r, n, hkey, hvault, hanswered, hknown, hfresh⟩

theorem raiseGen_eq {a : Answer} (hgen : a.gen = 0 ∨ ∃ n ≤ a.state, s.known v = some (a.gen, n)) :
    raiseGen s.gens v a.gen = s.gens ∧ s.gens v ≠ none ∨
    raiseGen s.gens v a.gen = Function.update s.gens v (some 0) ∧ s.gens v = none ∧ a.gen = 0 := by
  unfold raiseGen
  cases hg : s.gens v with
  | none =>
    all_goals
      obtain hzero | ⟨n, -, hn⟩ := hgen
      · simp [hzero]
      · simp [known, hg] at hn
  | some g =>
    refine .inl ⟨if_neg fun hlt => ?_, Option.some_ne_none g⟩
    obtain hzero | ⟨n, -, hn⟩ := hgen
    · omega
    · simp only [known, hg, Option.map_some, Option.some.injEq, Prod.mk.injEq] at hn
      omega

theorem Inv.setZero (h : Inv c s) (hnone : s.gens v = none) :
    Inv c { s with gens := Function.update s.gens v (some 0) } := by
  have hseen : s.seen v = 0 := h.unseen v (.inl hnone)
  have hknown : ∀ w, w ≠ v → known { s with gens := Function.update s.gens v (some 0) } w = s.known w := by
    intro w hw
    simp [known, hw]
  have hnever : s.known v = none := by rw [known, hnone, Option.map_none]
  refine ⟨h.calls, h.replies, h.routed, h.answers, fun w => ?_, fun w g hg => ?_, fun w hw => ?_, fun e he => ?_⟩
  · by_cases hw : w = v
    · subst hw
      exact (hnever ▸ h.link w).of_none
    · rw [hknown w hw]
      exact h.link w
  · refine (h.count w g hg).imp_right ?_
    rintro ⟨n, hn, hlast⟩
    by_cases hw : w = v
    · subst hw
      exact ⟨n, hn, lastGen_of_none (hnever ▸ hlast)⟩
    · exact ⟨n, hn, hknown w hw ▸ hlast⟩
  · by_cases hwv : w = v
    · exact hwv ▸ hseen
    · simp only [Function.update_of_ne hwv] at hw
      exact h.unseen w hw
  · obtain ⟨r, n, hkey, hvault, hanswered, hentry, hfresh⟩ := h.entries e he
    have hr : r.vaultId ≠ v := fun heq => hentry (heq ▸ hnone)
    exact ⟨r, n, hkey, hvault, hanswered, by simpa [hr] using hentry,
      fun htime hg => hfresh htime (by simpa [hr] using hg)⟩

theorem Inv.store (h : Inv c s) {r : Request} {a : Answer} (hanswered : Answered c s r a.json a.state)
    (hknown : s.gens r.vaultId ≠ none) (hgen : a.gen = 0 ∨ ∃ n ≤ a.state, s.known r.vaultId = some (a.gen, n)) :
    Inv c { s with cache := s.cache.set (key r) r.vaultId a.gen a.json s.now } := by
  refine h.setCache fun e he => ?_
  obtain he | rfl := mem_set he
  · obtain ⟨r', n, hkey, hvault, hanswered', hknown', hfresh⟩ := h.entries e he
    exact ⟨r', n, hkey, hvault, hanswered', hknown', by simpa using hfresh⟩
  · refine ⟨r, a.state, rfl, rfl, hanswered, hknown, fun _ hsame => ?_⟩
    obtain hzero | ⟨n, hn, heq⟩ := hgen
    · have hseen : s.seen r.vaultId = 0 := h.unseen r.vaultId (.inr (hzero ▸ hsame))
      exact hseen ▸ Nat.zero_le _
    · obtain ⟨g, -, hpair⟩ := Option.map_eq_some_iff.mp heq
      have hseen : s.seen r.vaultId = n := congrArg Prod.snd hpair
      exact hseen ▸ hn

theorem Inv.receiveReply (h : Inv c s) (hout : (s.slots i).out = .reply id value :: rest) :
    Inv c ((s.setSlot i { s.slots i with out := rest }).receive i (.reply id value)) := by
  have hdrop := h.dropReply hout
  simp only [receive, setSlot_same]
  cases hp : (s.slots i).pending.get id with
  | none => exact hdrop
  | some p =>
    have hdeleted : Inv c ((s.setSlot i { s.slots i with out := rest }).setSlot i
        { s.slots i with out := rest, pending := (s.slots i).pending.delete id }) := by
      refine hdrop.setPending (le_refl _) (by rw [setSlot_same]) fun id' p' hp' => .inl ⟨p', ?_, rfl⟩
      rw [KeyedMap.get_delete] at hp'
      split at hp'
      · cases hp'
      · rwa [setSlot_same]
    dsimp only
    split
    · rename_i a hwaiting
      have hshard := (h.calls i id p hp).2
      have hanswered := h.answers i id a p (hout ▸ List.mem_cons_self) hp
      have hlink := h.link p.request.vaultId
      rw [hshard, hout] at hlink
      have hgen := hlink.1 a p rfl hp rfl
      have hraised : Inv c { (s.setSlot i { s.slots i with out := rest }).setSlot i
          { s.slots i with out := rest, pending := (s.slots i).pending.delete id } with
          gens := raiseGen s.gens p.request.vaultId a.gen } ∧
          raiseGen s.gens p.request.vaultId a.gen p.request.vaultId ≠ none ∧
          (a.gen = 0 ∨ ∃ n ≤ a.state,
            (raiseGen s.gens p.request.vaultId a.gen p.request.vaultId).map (·, s.seen p.request.vaultId) =
              some (a.gen, n)) := by
        obtain ⟨heq, hsome⟩ | ⟨heq, hnone, hzero⟩ := raiseGen_eq hgen
        · rw [heq]
          exact ⟨hdeleted, hsome, hgen⟩
        · rw [heq]
          exact ⟨hdeleted.setZero hnone, by simp, .inl hzero⟩
      obtain ⟨hinv, hsome, hgen⟩ := hraised
      by_cases huse : p.useCache
      · rw [if_pos huse]
        exact hinv.store (r := p.request) hanswered hsome hgen
      · rw [if_neg huse]
        exact hinv
    · exact hdeleted

theorem Inv.crash (h : Inv c s) (i : Nat) : Inv c { s.setSlot i ⟨false, .empty, [], []⟩ with
    vaults := fun v => if c.shardOf v = i then none else s.vaults v } := by
  have hmem : ∀ j m, m ∈ ((s.setSlot i ⟨false, .empty, [], []⟩).slots j).out → m ∈ (s.slots j).out :=
    fun j m hm => mem_out_setSlot (fun m hm => by cases hm) hm
  have hpending : ∀ j id p, ((s.setSlot i ⟨false, .empty, [], []⟩).slots j).pending.get id = some p →
      (s.slots j).pending.get id = some p := by
    intro j id p hp
    by_cases hj : j = i
    · subst hj
      rw [setSlot_same] at hp
      cases hp
    · exact setSlot_ne hj ▸ hp
  refine ⟨fun j id p hp => h.calls j id p (hpending j id p hp),
    fun j id value hm => h.replies j id value (hmem j _ hm),
    fun j w g m hm => h.routed j w g m (hmem j _ hm),
    fun j id a p hm hp => h.answers j id a p (hmem j _ hm) (hpending j id p hp), fun w => ?_, fun w g hg => ?_,
    h.unseen, fun e he => ?_⟩
  · by_cases hw : c.shardOf w = i
    · rw [hw, setSlot_same]
      trivial
    · rw [setSlot_ne hw]
      exact h.link w
  · dsimp only at hg
    split at hg
    · cases hg
    · rename_i hw
      have := h.count w g hg
      rw [setSlot_ne hw]
      exact this
  · obtain ⟨r, n, hkey, hvault, hanswered, hknown, hfresh⟩ := h.entries e he
    exact ⟨r, n, hkey, hvault, hanswered, hknown, hfresh⟩

theorem Inv.execute (h : Inv c s) {gen : Nat} {p : PendingCall} (hp : (s.slots i).pending.get id = some p)
    (hgen : s.vaults p.request.vaultId = some gen) : Inv c (s.setSlot i { s.slots i with
      queue := (s.slots i).queue.erase id
      out := (s.slots i).out ++ [.reply id (some ⟨c.answer (s.index p.request.vaultId) p.request, gen,
        (s.past p.request.vaultId).length⟩)] }) := by
  obtain ⟨hid, hshard⟩ := h.calls i id p hp
  refine h.reply hid rfl rfl fun a p' ha hp' => ?_
  obtain rfl := Option.some.inj ha
  obtain rfl : p = p' := Option.some.inj (hp.symm.trans hp')
  exact ⟨⟨s.index p.request.vaultId, getElem?_states_past, rfl⟩, hshard ▸ h.count _ _ hgen⟩

/-- What one step keeps. -/
theorem Inv.step (h : Inv c s) {e : PoolEvent ι} {s' : Pool ι} (hnew : s.NewNumber e) (hs : Pool.step c s e = some s') :
    Inv c s' := by
  cases e with
  | arrive r useCache =>
    have hread : Inv c { s with cache := (if useCache then s.cache.get (key r) (s.gens r.vaultId) s.now
        else (none, s.cache)).2 } := by
      cases useCache with
      | true => exact h.readCache _ _
      | false => exact h
    dsimp only [Pool.step] at hs
    generalize (if useCache then s.cache.get (key r) (s.gens r.vaultId) s.now else (none, s.cache)) = looked
      at hs hread
    obtain ⟨hit, cache⟩ := looked
    split at hs
    · obtain rfl := Option.some.inj hs
      exact hread
    · obtain rfl := Option.some.inj hs
      refine hread.setPending (Nat.le_succ _) rfl fun id p' hp' => ?_
      rw [KeyedMap.get_set] at hp'
      split at hp'
      · rename_i hid
        obtain rfl := Option.some.inj hp'
        exact .inr ⟨hid.ge, hid ▸ Nat.lt_succ_self _, rfl⟩
      · exact .inl ⟨p', hp', rfl⟩
  | abandon i id =>
    dsimp only [Pool.step] at hs
    cases hp : (s.slots i).pending.get id with
    | none => simp [hp] at hs
    | some p =>
      rw [hp] at hs
      obtain rfl := Option.some.inj hs
      refine h.setPending (le_refl _) rfl fun id' p' hp' => .inl ?_
      rw [KeyedMap.get_set] at hp'
      split at hp'
      · rename_i hid
        obtain rfl := Option.some.inj hp'
        exact ⟨p, hid ▸ hp, rfl⟩
      · exact ⟨p', hp', rfl⟩
  | execute i id =>
    dsimp only [Pool.step] at hs
    split at hs
    · cases hp : (s.slots i).pending.get id with
      | none => simp [hp] at hs
      | some p =>
        rw [hp] at hs
        dsimp only at hs
        cases hgen : s.vaults p.request.vaultId with
        | none => simp [hgen] at hs
        | some gen =>
          rw [hgen] at hs
          obtain rfl := Option.some.inj hs
          exact h.execute hp hgen
    · cases hs
  | refuse i id =>
    dsimp only [Pool.step] at hs
    obtain ⟨hqueued, rfl⟩ := Option.ite_some_none_eq_some.1 hs
    obtain ⟨p, hp⟩ := Option.isSome_iff_exists.mp hqueued.2
    exact h.reply (h.calls i id p hp).1 rfl rfl fun _ _ ha => by cases ha
  | create v =>
    dsimp only [Pool.step] at hs
    obtain ⟨-, rfl⟩ := Option.ite_some_none_eq_some.1 hs
    refine h.setVaults fun w gen hgen => ?_
    by_cases hw : w = v
    · subst hw
      rw [Function.update_self] at hgen
      exact .inl (Option.some.inj hgen).symm
    · rw [Function.update_of_ne hw] at hgen
      exact .inr hgen
  | write v state =>
    dsimp only [Pool.step] at hs
    split at hs
    · cases hs
    · obtain rfl := Option.some.inj hs
      exact (h.become v state).bump v _
  | drift v state =>
    obtain rfl := Option.some.inj hs
    exact h.become v state
  | delete v state =>
    dsimp only [Pool.step] at hs
    split at hs
    · cases hs
    · obtain rfl := Option.some.inj hs
      refine ((h.become v state).bump v _).setVaults fun w gen hgen => ?_
      by_cases hw : w = v
      · subst hw
        rw [Function.update_self] at hgen
        cases hgen
      · rw [Function.update_of_ne hw] at hgen
        exact .inr hgen
  | deliver i =>
    dsimp only [Pool.step] at hs
    split at hs
    · cases hs
    · rename_i m rest hout
      obtain rfl := Option.some.inj hs
      cases m with
      | gen v gen n =>
        refine h.receiveGen hout fun e he hv hg => ?_
        simp only [NewNumber, hout] at hnew
        exact hnew e he hv hg
      | reply id value => exact h.receiveReply hout
  | crash i =>
    dsimp only [Pool.step] at hs
    obtain ⟨-, rfl⟩ := Option.ite_some_none_eq_some.1 hs
    exact h.crash i
  | restart i =>
    dsimp only [Pool.step] at hs
    split at hs
    · cases hs
    · obtain rfl := Option.some.inj hs
      exact h.setPending (le_refl _) rfl fun id p hp => .inl ⟨p, hp, rfl⟩
  | tick ms =>
    obtain rfl := Option.some.inj hs
    exact h.tick ms

theorem start_inv (c : Setting ι) (cache : ResultCache) (index : Text → ι) : Inv c (start cache index) where
  calls _ _ _ hp := by cases hp
  replies _ _ _ hm := by cases hm
  routed _ _ _ _ hm := by cases hm
  answers _ _ _ _ hm := by cases hm
  link _ := trivial
  count _ _ hg := by cases hg
  unseen _ _ := rfl
  entries _ he := by cases he

theorem Inv.fresh (h : Inv c s) : s.AnswersFresh c := by
  intro r json hget
  obtain ⟨e, hmem, hgen, htime, rfl⟩ := get_eq_some hget
  obtain ⟨r', n, hkey, hvault, ⟨state, hstate, hjson⟩, -, hfresh⟩ := h.entries _ hmem
  obtain rfl := key_inj hkey
  exact ⟨n, state, hfresh htime hgen, hstate, hjson⟩

/-- In a run in which every generation that arrives is new to the cache, no answer of the cache is stale. -/
theorem cached_answers_fresh (c : Setting ι) (cache : ResultCache) (index : Text → ι) {s : Pool ι}
    (hrun : Run (Pool.step c) Pool.NewNumber (start cache index) s) : s.AnswersFresh c :=
  (hrun.invariant (Inv c) (start_inv c cache index) fun _ _ _ h hnew hs => h.step hnew hs).fresh

/-! One shard, an index that answers with its state, and a call of the vault `v`. -/

def oneShard : Setting Nat where
  shardOf _ := 0
  perShardQueue := 8
  answer state _ := List.replicate state 'x'

def smallCache : ResultCache := ⟨8, 1000, 10000, .empty⟩

def someCall : Request :=
  ⟨['v'], ['q'], ['m'], [], by decide, by decide, by decide⟩

def newPool : Pool Nat := start smallCache fun _ => 0

/-- The vault is written, and a call on it answered. -/
def firstCall : List (PoolEvent Nat) :=
  [.create ['v'], .write ['v'] 1, .deliver 0, .arrive someCall true, .execute 0 1, .deliver 0]

theorem cached_answers_fresh_once : ∃ s, exec (Pool.step oneShard) Pool.NewNumber newPool firstCall = some s ∧
    (s.cache.get (key someCall) (s.gens ['v']) s.now).1 = some ['x'] ∧ s.AnswersFresh oneShard := by
  obtain ⟨s, hs⟩ : ∃ s, exec (Pool.step oneShard) Pool.NewNumber newPool firstCall = some s :=
    ⟨_, rfl⟩
  have hhit : (exec (Pool.step oneShard) Pool.NewNumber newPool firstCall).map
      (fun s => (s.cache.get (key someCall) (s.gens ['v']) s.now).1) = some (some ['x']) := by decide +kernel
  rw [hs] at hhit
  exact ⟨s, hs, Option.some.inj hhit, cached_answers_fresh _ _ _ (run_of_exec _ _ _ hs)⟩

theorem stale_of_exec (events : List (PoolEvent Nat)) (hit : Text) (seen : Nat) (states : List Nat)
    (h : (exec (Pool.step oneShard) (fun _ _ => True) newPool events).map (fun s =>
      ((s.cache.get (key someCall) (s.gens ['v']) s.now).1, s.seen ['v'], s.states ['v'])) =
      some (some hit, seen, states))
    (hlate : ∀ state ∈ states.drop seen, hit ≠ oneShard.answer state someCall) :
    ∃ s, Run (Pool.step oneShard) (fun _ _ => True) newPool s ∧ ¬ s.AnswersFresh oneShard := by
  obtain ⟨s, hs, heq⟩ := Option.map_eq_some_iff.mp h
  refine ⟨s, run_of_exec _ _ _ hs, fun hfresh => ?_⟩
  simp only [Prod.mk.injEq] at heq
  obtain ⟨hhit, hseen, hstates⟩ := heq
  obtain ⟨n, state, hn, hstate, hjson⟩ := hfresh someCall hit hhit
  refine hlate state ?_ hjson
  obtain ⟨k, rfl⟩ := Nat.exists_eq_add_of_le hn
  have hdrop : (states.drop seen)[k]? = some state := by
    rw [List.getElem?_drop, ← hseen, ← hstates]
    exact hstate
  exact List.mem_of_getElem? hdrop

/-- The shard falls and counts from zero: the result of the first state is given in the third one. -/
theorem stale_after_restart : ¬ ∀ (c : Setting Nat) (cache : ResultCache) (index : Text → Nat) (s : Pool Nat),
    Run (Pool.step c) (fun _ _ => True) (start cache index) s → s.AnswersFresh c := by
  intro hall
  obtain ⟨s, hrun, hstale⟩ := stale_of_exec
    (firstCall ++ [.write ['v'] 2, .deliver 0, .crash 0, .restart 0, .create ['v'], .write ['v'] 3, .deliver 0])
    ['x'] 3 [0, 1, 2, 3] (by decide +kernel) (by decide)
  exact hstale (hall _ _ _ s hrun)

end Pool
end Savoire.Indexer
