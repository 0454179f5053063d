import Savoire.Text
import Mathlib.Logic.Function.Basic
import Mathlib.Tactic.TypeStar
import Mathlib.Data.List.Enum
import Mathlib.Data.List.MinMax

/-! Nested maps that several clients write. Every write is kept; where more than one is under a key of a map, one
of them wins, and a map that loses is out of reach with all that is in it. -/
namespace SharedMaps
open Savoire (Text)
variable {κ α : Type*}

inductive Content (α : Type*)
  | leaf (v : α)
  | map

structure Entry (κ α : Type*) where
  client : κ
  /-- The map, by the write that made it; the root is none. -/
  node : Option Nat
  key : Text
  content : Content α
  /-- The write that the client saw under the key. -/
  replaced : Option Nat

/-- The rule for the writes under one key: one of them, and none that another one replaced. -/
structure LastWriter (κ α : Type*) where
  pick : List (Entry κ α × Nat) → Option Nat
  mem : ∀ {l id}, pick l = some id → ∃ e, (e, id) ∈ l
  last : ∀ {l id}, pick l = some id → ∀ x ∈ l, x.1.replaced ≠ some id
  some : ∀ {l}, l ≠ [] → (∀ x ∈ l, ∀ id, x.1.replaced = some id → id < x.2) → (pick l).isSome

def greatestClient : LastWriter Nat α where
  pick l := ((l.filter fun x => l.all fun y => y.1.replaced != some x.2).argmax fun x => x.1.client).map Prod.snd
  mem h := by
    obtain ⟨⟨e, id⟩, hmax, rfl⟩ := Option.map_eq_some_iff.mp h
    exact ⟨e, (List.mem_filter.mp (List.argmax_mem hmax)).1⟩
  last h := by
    obtain ⟨x, hmax, rfl⟩ := Option.map_eq_some_iff.mp h
    simpa using (List.mem_filter.mp (List.argmax_mem hmax)).2
  some := by
    intro l hl hreplaced
    rw [Option.isSome_map, Option.isSome_iff_ne_none, Ne, List.argmax_eq_none]
    obtain ⟨last, hlast⟩ := Option.ne_none_iff_exists'.mp (fun hnone =>
      hl (List.argmax_eq_none.mp hnone) : l.argmax Prod.snd ≠ none)
    refine List.ne_nil_of_mem (a := last) (List.mem_filter.mpr ⟨List.argmax_mem hlast, ?_⟩)
    rw [List.all_eq_true]
    intro y hy
    rw [bne_iff_ne]
    intro heq
    have hle := List.le_of_mem_argmax hy hlast
    have hlt := hreplaced y hy _ heq
    omega

/-- All writes in the order in which they were made, and which of them a client has. -/
structure Doc (κ α : Type*) where
  log : List (Entry κ α)
  known : κ → Nat → Bool

inductive Value (α : Type*)
  | leaf (v : α)
  | map (id : Nat)

def Content.value (id : Nat) : Content α → Value α
  | .leaf v => .leaf v
  | .map => .map id

namespace Doc
variable (w : LastWriter κ α) (d : Doc κ α) (i : κ)

def candidates (node : Option Nat) (key : Text) : List (Entry κ α × Nat) :=
  d.log.zipIdx.filter fun x => d.known i x.2 && x.1.node == node && x.1.key == key

def winner (node : Option Nat) (key : Text) : Option Nat := w.pick (d.candidates i node key)

def get (node : Option Nat) (key : Text) : Option (Value α) :=
  (d.winner w i node key).bind fun id => d.log[id]?.map fun e => e.content.value id

variable [DecidableEq κ]

/-- A write; its number is how many there were. -/
def set (node : Option Nat) (key : Text) (content : Content α) : Doc κ α where
  log := d.log ++ [⟨i, node, key, content, d.winner w i node key⟩]
  known := fun j id => d.known j id || (decide (j = i) && id == d.log.length)

/-- Writes of others come in. -/
def receive (ids : List Nat) : Doc κ α where
  log := d.log
  known := fun j id => d.known j id || (decide (j = i) && decide (id ∈ ids))

omit [DecidableEq κ] in
/-- What is under a path from a map. -/
def read : Option Nat → List Text → Option (Value α)
  | _, [] => none
  | node, [key] => d.get w i node key
  | node, key :: rest =>
    match d.get w i node key with
    | some (.map id) => read (some id) rest
    | _ => none

end Doc

inductive At (log : List (Entry κ α)) : Option Nat → List Text → Prop
  | root : At log none []
  | child {id : Nat} {e : Entry κ α} {path : List Text} : log[id]? = some e → e.content = .map → At log e.node path →
      At log (some id) (path ++ [e.key])

def Written (log : List (Entry κ α)) (id : Nat) (e : Entry κ α) (path : List Text) : Prop :=
  log[id]? = some e ∧ ∃ p, At log e.node p ∧ path = p ++ [e.key]

structure Once (d : Doc κ α) : Prop where
  node : ∀ {id n : Nat} {e : Entry κ α}, d.log[id]? = some e → e.node = some n →
    ∃ e', d.log[n]? = some e' ∧ e'.content = .map
  once : ∀ {id id' : Nat} {e e' : Entry κ α}, d.log[id]? = some e → d.log[id']? = some e' → e.content = .map →
    e'.node = e.node → e'.key = e.key → id' = id
  own : ∀ {id : Nat} {e : Entry κ α}, d.log[id]? = some e → d.known e.client id = true
  replaced : ∀ {id r : Nat} {e : Entry κ α}, d.log[id]? = some e → e.replaced = some r → r < id
  chain : ∀ {id id' : Nat} {e e' : Entry κ α}, d.log[id]? = some e → d.log[id']? = some e' → id < id' →
    e'.node = e.node → e'.key = e.key →
    (∀ (j : Nat) (x : Entry κ α), d.log[j]? = some x → x.node = e.node → x.key = e.key → x.client = e.client) →
    ∃ (j : Nat) (x : Entry κ α), d.log[j]? = some x ∧ x.node = e.node ∧ x.key = e.key ∧ x.replaced = some id

section Read
variable {w : LastWriter κ α} {d : Doc κ α} {i : κ} {node : Option Nat} {key : Text} {id : Nat} {e : Entry κ α}
  {path : List Text} {v : α}

theorem mem_candidates : (e, id) ∈ d.candidates i node key ↔
    d.log[id]? = some e ∧ d.known i id = true ∧ e.node = node ∧ e.key = key := by
  rw [Doc.candidates, List.mem_filter, List.mem_zipIdx_iff_getElem?]
  simp [and_assoc]

theorem winner_mem (h : d.winner w i node key = some id) :
    ∃ e, d.log[id]? = some e ∧ e.node = node ∧ e.key = key := by
  obtain ⟨e, he⟩ := w.mem h
  obtain ⟨hlog, -, hnode, hkey⟩ := mem_candidates.mp he
  exact ⟨e, hlog, hnode, hkey⟩

theorem Once.winner_isSome (h : Once d) (he : d.log[id]? = some e) (hknown : d.known i id = true)
    (hnode : e.node = node) (hkey : e.key = key) : (d.winner w i node key).isSome := by
  refine w.some (fun hnil => ?_) fun x hx r hr => ?_
  · have hmem := mem_candidates.mpr ⟨he, hknown, hnode, hkey⟩
    rw [hnil] at hmem
    cases hmem
  · exact h.replaced (mem_candidates.mp hx).1 hr

theorem Once.get_map (h : Once d) (he : d.log[id]? = some e) (hmap : e.content = .map)
    (hknown : d.known i id = true) : d.get w i e.node e.key = some (.map id) := by
  obtain ⟨id', hwinner⟩ := Option.isSome_iff_exists.mp (h.winner_isSome (w := w) he hknown rfl rfl)
  obtain ⟨e', he', hnode, hkey⟩ := winner_mem hwinner
  obtain rfl := h.once he he' hmap hnode hkey
  rw [Doc.get, hwinner, Option.bind_some, he, Option.map_some, hmap]
  rfl

theorem Once.read_at (h : Once d) (hfull : ∀ id < d.log.length, d.known i id = true) (hat : At d.log node path)
    (rest : List Text) (hrest : rest ≠ []) : d.read w i none (path ++ rest) = d.read w i node rest := by
  induction hat generalizing rest with
  | root => rfl
  | child he hmap _ ih =>
    rename_i id e p _
    rw [List.append_assoc, ih _ (by simp)]
    obtain ⟨key, rest, rfl⟩ := List.exists_cons_of_ne_nil hrest
    rw [List.singleton_append, Doc.read]
    · rw [h.get_map he hmap (hfull id (List.getElem?_eq_some_iff.mp he).1)]
    · simp

variable {log : List (Entry κ α)}

theorem at_cases (h : At log node path) : node = none ∧ path = [] ∨
    ∃ (id : Nat) (e : Entry κ α) (p : List Text), node = some id ∧ log[id]? = some e ∧ e.content = .map ∧
      At log e.node p ∧ path = p ++ [e.key] := by
  cases h with
  | root => exact .inl ⟨rfl, rfl⟩
  | child he hmap hat => exact .inr ⟨_, _, _, rfl, he, hmap, hat, rfl⟩

theorem at_snoc (h : At log node (path ++ [key])) :
    ∃ (id : Nat) (e : Entry κ α), node = some id ∧ log[id]? = some e ∧ e.content = .map ∧ At log e.node path ∧
      e.key = key := by
  obtain ⟨-, hpath⟩ | ⟨id, e, p, hid, he, hmap, hat, hpath⟩ := at_cases h
  · simp at hpath
  · obtain ⟨rfl, hkey⟩ := List.append_inj' hpath rfl
    exact ⟨id, e, hid, he, hmap, hat, (List.singleton_inj.mp hkey).symm⟩

theorem at_unique {path' : List Text} (h : At log node path) (h' : At log node path') :
    path = path' := by
  induction h generalizing path' with
  | root =>
    obtain ⟨-, rfl⟩ | ⟨id, e, p, hid, -⟩ := at_cases h'
    · rfl
    · cases hid
  | child he _ _ ih =>
    obtain ⟨hid, -⟩ | ⟨id', e', p', hid, he', -, hat', rfl⟩ := at_cases h'
    · cases hid
    · cases hid
      cases he.symm.trans he'
      rw [ih hat']

theorem Once.read_written (h : Once d) (hfull : ∀ id < d.log.length, d.known i id = true)
    (hwritten : Written d.log id e path)
    (honly : ∀ id' e', Written d.log id' e' path → e'.client = e.client ∧ id' ≤ id) :
    d.read w i none path = some (e.content.value id) := by
  obtain ⟨he, p, hat, rfl⟩ := hwritten
  rw [h.read_at hfull hat [e.key] (by simp), Doc.read, Doc.get]
  have hsame : ∀ (j : Nat) (x : Entry κ α), d.log[j]? = some x → x.node = e.node → x.key = e.key →
      x.client = e.client ∧ j ≤ id := by
    intro j x hx hnode hkey
    exact honly j x ⟨hx, p, hnode ▸ hat, by rw [hkey]⟩
  obtain ⟨id', hwinner⟩ := Option.isSome_iff_exists.mp
    (h.winner_isSome (w := w) he (hfull id (List.getElem?_eq_some_iff.mp he).1) rfl rfl)
  obtain ⟨e', he', hnode, hkey⟩ := winner_mem hwinner
  have hle := (hsame id' e' he' hnode hkey).2
  -- A write before the last one is replaced, so it does not win.
  have heq : id' = id := by
    by_contra hne
    obtain ⟨j, x, hx, hxnode, hxkey, hreplaced⟩ := h.chain he' he (by omega) hnode.symm hkey.symm
      fun j x hx hxnode hxkey => by
        rw [(hsame j x hx (hxnode.trans hnode) (hxkey.trans hkey)).1, (hsame id' e' he' hnode hkey).1]
    have hmem : (x, j) ∈ d.candidates i e.node e.key := mem_candidates.mpr
      ⟨hx, hfull j (List.getElem?_eq_some_iff.mp hx).1, hxnode.trans hnode, hxkey.trans hkey⟩
    exact w.last hwinner _ hmem hreplaced
  rw [hwinner, heq, Option.bind_some, he, Option.map_some]

end Read

section Keep
variable {w : LastWriter κ α} {d : Doc κ α} {i : κ} {node : Option Nat} {key : Text} {content : Content α}
  {id : Nat} {e : Entry κ α} {path : List Text} [DecidableEq κ]

theorem getElem?_set : (d.set w i node key content).log[id]? = some e ↔
    d.log[id]? = some e ∨
      id = d.log.length ∧ e = ⟨i, node, key, content, d.winner w i node key⟩ := by
  rw [Doc.set, List.getElem?_append]
  split
  · exact ⟨.inl, fun h => h.elim (fun h => h) fun h => by omega⟩
  · have hnone : d.log[id]? = none := List.getElem?_eq_none (by omega)
    rw [hnone]
    constructor
    · intro h
      have hid : id - d.log.length = 0 := by
        have hlt := (List.getElem?_eq_some_iff.mp h).1
        simp at hlt
        omega
      rw [hid] at h
      exact .inr ⟨by omega, (Option.some.inj h).symm⟩
    · rintro (h | ⟨rfl, rfl⟩)
      · cases h
      · simp

theorem getElem?_set_old (h : d.log[id]? = some e) : (d.set w i node key content).log[id]? = some e :=
  getElem?_set.mpr (.inl h)

/-- A write of a value where no map is, or of a map where nothing is, in a map that is there. -/
theorem Once.set (h : Once d)
    (hnode : ∀ n, node = some n → ∃ e, d.log[n]? = some e ∧ e.content = .map)
    (hfree : ∀ (j : Nat) (x : Entry κ α), d.log[j]? = some x → x.node = node → x.key = key →
      x.content ≠ .map ∧ content ≠ .map) : Once (d.set w i node key content) where
  node he hn := by
    obtain he | ⟨rfl, rfl⟩ := getElem?_set.mp he
    · obtain ⟨e', he', hmap⟩ := h.node he hn
      exact ⟨e', getElem?_set_old he', hmap⟩
    · obtain ⟨e', he', hmap⟩ := hnode _ hn
      exact ⟨e', getElem?_set_old he', hmap⟩
  once he he' hmap hn hk := by
    obtain he | ⟨rfl, rfl⟩ := getElem?_set.mp he
    · obtain he' | ⟨rfl, rfl⟩ := getElem?_set.mp he'
      · exact h.once he he' hmap hn hk
      · exact absurd hmap (hfree _ _ he hn.symm hk.symm).1
    · obtain he' | ⟨rfl, -⟩ := getElem?_set.mp he'
      · exact absurd hmap (hfree _ _ he' hn hk).2
      · rfl
  own he := by
    obtain he | ⟨rfl, rfl⟩ := getElem?_set.mp he
    · simp [Doc.set, h.own he]
    · simp [Doc.set]
  replaced he hr := by
    obtain he | ⟨rfl, rfl⟩ := getElem?_set.mp he
    · exact h.replaced he hr
    · obtain ⟨e', he', -, -⟩ := winner_mem hr
      exact (List.getElem?_eq_some_iff.mp he').1
  chain := by
    intro id id' e e' he he' hlt hn hk hclient
    have hold : ∀ (j : Nat) (x : Entry κ α), d.log[j]? = some x → x.node = e.node → x.key = e.key →
        x.client = e.client := fun j x hx => hclient j x (getElem?_set_old hx)
    have hid' := (List.getElem?_eq_some_iff.mp he').1
    have hthere : d.log[id]? = some e := by
      obtain he | ⟨rfl, -⟩ := getElem?_set.mp he
      · exact he
      · simp [Doc.set] at hid'
        omega
    have hnext : ∀ {j : Nat} {x : Entry κ α}, d.log[j]? = some x → id < j → x.node = e.node → x.key = e.key →
        ∃ (j : Nat) (x : Entry κ α), (d.set w i node key content).log[j]? = some x ∧ x.node = e.node ∧
          x.key = e.key ∧ x.replaced = some id := by
      intro j x hx hj hxn hxk
      obtain ⟨j', x', hx', hrest⟩ := h.chain hthere hx hj hxn hxk hold
      exact ⟨j', x', getElem?_set_old hx', hrest⟩
    obtain he' | ⟨rfl, rfl⟩ := getElem?_set.mp he'
    · exact hnext he' hlt hn hk
    · -- The new write replaces the last one of its client, unless there is one between.
      subst hn hk
      have hi : i = e.client := hclient _ _ (getElem?_set.mpr (.inr ⟨rfl, rfl⟩)) rfl rfl
      have hknown : ∀ {j : Nat} {x : Entry κ α}, d.log[j]? = some x → x.node = e.node → x.key = e.key →
          d.known i j = true := by
        intro j x hx hxn hxk
        rw [hi, ← hold j x hx hxn hxk]
        exact h.own hx
      obtain ⟨r, hr⟩ := Option.isSome_iff_exists.mp (h.winner_isSome (w := w) hthere (hknown hthere rfl rfl) rfl rfl)
      obtain ⟨er, her, hrn, hrk⟩ := winner_mem hr
      obtain hlt' | heq | hgt := Nat.lt_trichotomy r id
      · obtain ⟨j, x, hx, hxn, hxk, hxr⟩ := h.chain her hthere hlt' hrn.symm hrk.symm
          fun j x hx hxn hxk => by rw [hold j x hx (hxn.trans hrn) (hxk.trans hrk), hold r er her hrn hrk]
        have hmem : (x, j) ∈ d.candidates i e.node e.key := mem_candidates.mpr
          ⟨hx, hknown hx (hxn.trans hrn) (hxk.trans hrk), hxn.trans hrn, hxk.trans hrk⟩
        exact absurd hxr (w.last hr _ hmem)
      · exact ⟨_, _, getElem?_set.mpr (.inr ⟨rfl, rfl⟩), rfl, rfl, heq ▸ hr⟩
      · exact hnext her hgt hrn hrk

theorem Once.receive (h : Once d) (ids : List Nat) : Once (d.receive i ids) where
  __ := h
  own he := by simp [Doc.receive, h.own he]

theorem At.set {n : Option Nat} (h : At d.log n path) : At (d.set w i node key content).log n path := by
  induction h with
  | root => exact .root
  | child he hmap _ ih => exact .child (getElem?_set_old he) hmap ih

theorem At.of_set (hd : Once d) {n : Option Nat} (h : At (d.set w i node key content).log n path)
    (hn : ∀ id, n = some id → id < d.log.length) : At d.log n path := by
  induction h with
  | root => exact .root
  | child he hmap _ ih =>
    obtain he | ⟨rfl, -⟩ := getElem?_set.mp he
    · refine .child he hmap (ih fun n hen => ?_)
      obtain ⟨e', he', -⟩ := hd.node he hen
      exact (List.getElem?_eq_some_iff.mp he').1
    · exact absurd (hn _ rfl) (by omega)

theorem Written.set (h : Written d.log id e path) : Written (d.set w i node key content).log id e path := by
  obtain ⟨he, p, hat, hpath⟩ := h
  exact ⟨getElem?_set_old he, p, hat.set, hpath⟩

theorem Written.of_set (hd : Once d) (hnode : ∀ n, node = some n → n < d.log.length)
    (h : Written (d.set w i node key content).log id e path) :
    Written d.log id e path ∨
      id = d.log.length ∧ e = ⟨i, node, key, content, d.winner w i node key⟩ ∧
        ∃ p, At d.log node p ∧ path = p ++ [key] := by
  obtain ⟨he, p, hat, hpath⟩ := h
  obtain he | ⟨rfl, rfl⟩ := getElem?_set.mp he
  · refine .inl ⟨he, p, hat.of_set hd fun n hn => ?_, hpath⟩
    obtain ⟨e', he', -⟩ := hd.node he hn
    exact (List.getElem?_eq_some_iff.mp he').1
  · exact .inr ⟨rfl, rfl, p, hat.of_set hd hnode, hpath⟩

end Keep
end SharedMaps
