import Savoire.Sync.DocumentFetcher

/-! What the reads of closed documents give. -/
namespace Savoire.DocumentFetcher
open Transition

variable {π : Type*}

structure EntryOk (link : Link) (conn : Nat) (delivered : List (Text × π)) (docId : Text) (entry : DocEntry π) :
    Prop where
  called : entry.ready = false → entry.call.isSome = true
  starting : entry.isStarting = true → link = .connecting ∧ entry.ready = false
  calling : ∀ c ∈ entry.call, c.1.began ≤ conn
  waiting : ∀ r ∈ entry.waiting, r.began ≤ conn
  idle : entry.ready = true → entry.waiting = []
  conn : entry.ready = true → entry.conn = conn
  joined : entry.ready = true → ∀ op, (docId, op) ∈ entry.joined → op ∈ entry.ops
  delivered : entry.ready = true → ∀ op, (docId, op) ∈ delivered → op ∈ entry.ops

def DocsOk (link : Link) (conn : Nat) (delivered : List (Text × π)) (docs : KeyedMap Text (DocEntry π)) : Prop :=
  ∀ docId entry, docs.get docId = some entry → EntryOk link conn delivered docId entry

/-- No operation is sent before an initial state that lacks it. -/
def Ordered (m m' : Message π) : Prop :=
  ∀ docId op ops joined, m = .receiveOperation docId op → m' = .initDocument docId ops joined → op ∈ ops

structure ServerOk (inbox : List (Message π)) (delivered relayed log : List (Text × π))
    (pushes : List (Text × π × Option Nat)) (serving : Option (Serving π)) : Prop where
  ordered : inbox.Pairwise Ordered
  init : ∀ docId ops joined, .initDocument docId ops joined ∈ inbox →
    ∀ op, (docId, op) ∈ delivered ∨ (docId, op) ∈ joined → op ∈ ops
  sent : ∀ docId op, .receiveOperation docId op ∈ inbox → (docId, op) ∈ relayed
  came : ∀ p ∈ delivered, p ∈ relayed
  accepted : ∀ p ∈ relayed, p ∈ log
  pushed : ∀ p ∈ pushes, (p.1, p.2.1) ∈ log
  serves : ∀ v ∈ serving, ∀ op, (v.docId, op) ∈ relayed → op ∈ v.ops
  joined : ∀ v ∈ serving, ∀ l ∈ v.joined, ∀ p ∈ l, p ∈ relayed

structure ResultOk (r : Result π) : Prop where
  contains : ∀ op ∈ r.owed, op ∈ r.ops
  joined : r.read.began ≤ r.conn

structure Inv (s : Fetcher π) : Prop where
  stranded : s.stranded = 0
  docs : DocsOk s.link s.conn s.delivered s.docs
  server : ServerOk s.inbox s.delivered s.relayed s.log s.pushes s.serving
  results : ∀ r ∈ s.results, ResultOk r

section Steps
variable {s s' : Fetcher π} {link : Link} {conn : Nat} {delivered : List (Text × π)} {docId : Text}
  {entry : DocEntry π} {docs : KeyedMap Text (DocEntry π)}

theorem DocsOk.set (h : DocsOk link conn delivered docs) (he : EntryOk link conn delivered docId entry) :
    DocsOk link conn delivered (docs.set docId entry) := by
  intro d e hget
  rw [KeyedMap.get_set] at hget
  split at hget
  · rename_i hd
    obtain rfl := Option.some.inj hget
    exact hd ▸ he
  · exact h d e hget

theorem DocsOk.delete (h : DocsOk link conn delivered docs) (docId : Text) :
    DocsOk link conn delivered (docs.delete docId) := by
  intro d e hget
  rw [KeyedMap.get_delete] at hget
  split at hget
  · cases hget
  · exact h d e hget

theorem results_append {l l' : List (Result π)} (h : ∀ r ∈ l, ResultOk r) (h' : ∀ r ∈ l', ResultOk r) :
    ∀ r ∈ l ++ l', ResultOk r := by
  intro r hr
  exact (List.mem_append.mp hr).elim (h r) (h' r)

theorem EntryOk.new {read : Read} {stage : Stage} (hread : read.began ≤ conn)
    (hstage : stage = .starting → link = .connecting) :
    EntryOk link conn delivered docId ⟨false, [], some (read, stage), [], 0, []⟩ where
  called _ := rfl
  starting hs := ⟨hstage (by simpa [DocEntry.isStarting] using hs), rfl⟩
  calling c hc := by
    obtain rfl := Option.some.inj hc
    exact hread
  waiting _ hr := by cases hr
  idle hr := by cases hr
  conn hr := by cases hr
  joined hr := by cases hr
  delivered hr := by cases hr

theorem DocsOk.of_link (h : DocsOk link conn delivered docs) {link' : Link}
    (hlink : link = .connecting → link' = .connecting) : DocsOk link' conn delivered docs := by
  intro d e hget
  have he := h d e hget
  exact { he with starting := fun hs => ⟨hlink (he.starting hs).1, (he.starting hs).2⟩ }

theorem EntryOk.unready (h : EntryOk link conn delivered docId entry) (hready : entry.ready = false) {link' : Link}
    {conn' : Nat} (hconn : conn ≤ conn') (hlink : entry.isStarting = true → link' = .connecting) :
    EntryOk link' conn' delivered docId entry where
  called := h.called
  starting hs := ⟨hlink hs, hready⟩
  calling c hc := (h.calling c hc).trans hconn
  waiting r hr := (h.waiting r hr).trans hconn
  idle hr := by cases hready.symm.trans hr
  conn hr := by cases hready.symm.trans hr
  joined hr := by cases hready.symm.trans hr
  delivered hr := by cases hready.symm.trans hr

theorem EntryOk.deliver {d : Text} {op : π} (h : EntryOk link conn delivered d entry)
    (hop : d = docId → entry.ready = true → op ∈ entry.ops) :
    EntryOk link conn (delivered ++ [(docId, op)]) d entry :=
  { h with
    delivered := fun hr op' hmem => by
      rcases List.mem_append.mp hmem with hmem | hmem
      · exact h.delivered hr op' hmem
      · obtain ⟨hd, rfl⟩ := Prod.mk.inj (List.mem_singleton.mp hmem)
        exact hop hd hr }

theorem EntryOk.join (h : EntryOk link conn delivered docId entry) (hready : entry.ready = false) {link' : Link}
    {conn' : Nat} (hconn : conn ≤ conn') (call : Read → Option Nat) :
    EntryOk link' conn' delivered docId
      { entry with call := entry.call.map fun c => (c.1, .joining (call c.1)) } where
  called hr := by
    rw [Option.isSome_map]
    exact h.called hr
  starting hs := by
    cases hcall : entry.call <;> simp [DocEntry.isStarting, hcall] at hs
  calling c hc := by
    obtain ⟨c₀, hc₀, rfl⟩ := Option.map_eq_some_iff.mp hc
    exact (h.calling c₀ hc₀).trans hconn
  waiting r hr := (h.waiting r hr).trans hconn
  idle hr := by cases hready.symm.trans hr
  conn hr := by cases hready.symm.trans hr
  joined hr := by cases hready.symm.trans hr
  delivered hr := by cases hready.symm.trans hr

theorem EntryOk.ended (h : EntryOk link conn delivered docId entry) (hready : entry.ready = true) :
    EntryOk link conn delivered docId { entry with call := none } :=
  { h with
    called := fun hr => by cases hready.symm.trans hr
    starting := fun hs => by cases hs
    calling := fun c hc => by cases hc }

theorem Inv.reject (h : Inv s) (hget : s.docs.get docId = some entry) {c : Read × Stage}
    (hc : entry.call = some c) (hfail : entry.CanFail) : Inv (s.reject docId entry) := by
  have he := h.docs docId entry hget
  obtain ⟨⟨kind, before, began⟩, stage⟩ := c
  unfold Fetcher.reject
  rw [hc]
  cases kind with
  | content =>
    have hready : entry.ready = true := hfail.elim id fun hkind => by cases hkind.1 _ hc
    exact { h with docs := h.docs.set (he.ended hready) }
  | state =>
    have hnone : entry.waiting = [] := hfail.elim he.idle And.right
    refine { h with docs := h.docs.delete docId, stranded := ?_ }
    rw [hnone]
    exact h.stranded

theorem ServerOk.cut {inbox : List (Message π)} {relayed log : List (Text × π)} {pushes : List (Text × π × Option Nat)}
    {serving : Option (Serving π)} (h : ServerOk inbox delivered relayed log pushes serving) :
    ServerOk [] delivered relayed log pushes none where
  ordered := .nil
  init _ _ _ hm := by cases hm
  sent _ _ hm := by cases hm
  __ := h
  serves _ hv := by cases hv
  joined _ hv := by cases hv

theorem Inv.cut (h : Inv s) (hlink : s.link ≠ .connecting) (link : Link) : Inv (s.cut link) where
  stranded := h.stranded
  docs := h.docs.of_link fun hl => absurd hl hlink
  server := h.server.cut
  results := h.results

theorem Inv.reconnected (h : Inv s) (hlink : s.link ≠ .connecting) (hready : ∀ p ∈ s.docs.entries, p.2.ready = false) :
    Inv { s.cut .connected with conn := s.conn + 1 } where
  stranded := h.stranded
  docs d e hget := by
    have he := h.docs d e hget
    exact he.unready (hready (d, e) (KeyedMap.mem_iff.mpr hget)) (Nat.le_succ _)
      fun hs => absurd (he.starting hs).1 hlink
  server := h.server.cut
  results := h.results

theorem Inv.started (h : Inv s) (hready : ∀ p ∈ s.docs.entries, p.2.ready = false) : Inv s.started where
  stranded := h.stranded
  docs d e hget := by
    simp only [Fetcher.started, KeyedMap.get_map, Option.map_eq_some_iff] at hget
    obtain ⟨e₀, hget, rfl⟩ := hget
    have he := h.docs d e₀ hget
    have hr := hready (d, e₀) (KeyedMap.mem_iff.mpr hget)
    split
    · exact he.join hr (Nat.le_succ _) fun _ => some (s.conn + 1)
    · rename_i hs
      exact he.unready hr (Nat.le_succ _) fun hs' => absurd hs' hs
  server := h.server.cut
  results := h.results

theorem foldl_reject {l : List (Text × DocEntry π)}
    (hl : ∀ p ∈ l, (∃ c, p.2.call = some c ∧ c.1.kind = .state) ∧ p.2.waiting = []) (s : Fetcher π) :
    l.foldl (fun s p => s.reject p.1 p.2) s = { s with docs := l.foldl (fun m p => m.delete p.1) s.docs } := by
  induction l generalizing s with
  | nil => rfl
  | cons p l ih =>
    obtain ⟨⟨⟨⟨kind, before, began⟩, stage⟩, hcall, hkind⟩, hwaiting⟩ := hl p List.mem_cons_self
    obtain rfl : kind = .state := hkind
    have hreject : s.reject p.1 p.2 = { s with docs := s.docs.delete p.1 } := by
      simp [Fetcher.reject, hcall, hwaiting]
    rw [List.foldl_cons, List.foldl_cons, ih (fun p' hp' => hl p' (List.mem_cons_of_mem p hp')), hreject]

theorem Inv.notStarted (h : Inv s) (hfail : ∀ p ∈ s.docs.entries, p.2.isStarting = true → p.2.CanFail) :
    Inv s.notStarted := by
  have hl : ∀ p ∈ s.docs.entries.filter fun p => p.2.isStarting,
      (∃ c, p.2.call = some c ∧ c.1.kind = .state) ∧ p.2.waiting = [] := by
    intro p hp
    obtain ⟨hp, hs⟩ := List.mem_filter.mp hp
    have he := h.docs p.1 p.2 (KeyedMap.mem_iff.mp hp)
    have hready := (he.starting hs).2
    obtain ⟨c, hc⟩ := Option.isSome_iff_exists.mp (he.called hready)
    rcases hfail p hp hs with hr | ⟨hkind, hwaiting⟩
    · cases hready.symm.trans hr
    · exact ⟨⟨c, hc, hkind c hc⟩, hwaiting⟩
  unfold Fetcher.notStarted
  rw [foldl_reject hl]
  refine { h with docs := fun d e hget => ?_ }
  rw [KeyedMap.get_foldl_delete] at hget
  split at hget
  · cases hget
  · rename_i hd
    have he := h.docs d e hget
    refine { he with starting := fun hs => absurd ?_ hd }
    exact List.mem_map_of_mem (List.mem_filter.mpr ⟨KeyedMap.mem_iff.mpr hget, hs⟩)

section Server
variable {inbox : List (Message π)} {relayed log : List (Text × π)} {pushes : List (Text × π × Option Nat)}
  {serving : Option (Serving π)} {m : Message π} {op : π}

theorem ServerOk.tail (h : ServerOk (m :: inbox) delivered relayed log pushes serving) :
    ServerOk inbox delivered relayed log pushes serving :=
  { h with
    ordered := h.ordered.of_cons
    init := fun d ops joined hm => h.init d ops joined (List.mem_cons_of_mem m hm)
    sent := fun d op hm => h.sent d op (List.mem_cons_of_mem m hm) }

theorem ServerOk.deliver (h : ServerOk (.receiveOperation docId op :: inbox) delivered relayed log pushes serving) :
    ServerOk inbox (delivered ++ [(docId, op)]) relayed log pushes serving :=
  { h.tail with
    init := fun d ops joined hm op' hop => by
      rcases hop with hop | hop
      · rcases List.mem_append.mp hop with hop | hop
        · exact h.tail.init d ops joined hm op' (.inl hop)
        · obtain ⟨rfl, rfl⟩ := Prod.mk.inj (List.mem_singleton.mp hop)
          exact List.rel_of_pairwise_cons h.ordered hm d op' ops joined rfl rfl
      · exact h.tail.init d ops joined hm op' (.inr hop)
    came := fun p hp => by
      rcases List.mem_append.mp hp with hp | hp
      · exact h.came p hp
      · rw [List.mem_singleton.mp hp]
        exact h.sent docId op List.mem_cons_self }

theorem ServerOk.send (h : ServerOk inbox delivered relayed log pushes serving)
    (hordered : ∀ m' ∈ inbox, Ordered m' m)
    (hinit : ∀ d ops joined, m = .initDocument d ops joined →
      ∀ op, (d, op) ∈ delivered ∨ (d, op) ∈ joined → op ∈ ops)
    (hsent : ∀ d op, m = .receiveOperation d op → (d, op) ∈ relayed) :
    ServerOk (inbox ++ [m]) delivered relayed log pushes serving :=
  { h with
    ordered := List.pairwise_append.mpr ⟨h.ordered, List.pairwise_singleton _ _, fun m' hm' m'' hm'' => by
      rw [List.mem_singleton.mp hm'']
      exact hordered m' hm'⟩
    init := fun d ops joined hm => (List.mem_append.mp hm).elim (h.init d ops joined)
      fun hm => hinit d ops joined (List.mem_singleton.mp hm).symm
    sent := fun d op hm => (List.mem_append.mp hm).elim (h.sent d op)
      fun hm => hsent d op (List.mem_singleton.mp hm).symm }

theorem ServerOk.answer (h : ServerOk inbox delivered relayed log pushes serving) (docId : Text) (ok : Bool) :
    ServerOk (inbox ++ [.answer docId ok]) delivered relayed log pushes serving :=
  h.send (fun _ _ _ _ _ _ _ hm => by cases hm) (fun _ _ _ hm => by cases hm) fun _ _ hm => by cases hm

theorem ServerOk.init_sent {ops : List π} {joined : List (Text × π)}
    (h : ServerOk inbox delivered relayed log pushes (some ⟨docId, ops, some joined⟩)) :
    ServerOk (inbox ++ [.initDocument docId ops joined]) delivered relayed log pushes none := by
  have hops : ∀ op, (docId, op) ∈ relayed → op ∈ ops := h.serves _ rfl
  have hserved : ServerOk inbox delivered relayed log pushes none :=
    { h with
      serves := fun _ hv => by cases hv
      joined := fun _ hv => by cases hv }
  refine hserved.send ?_ ?_ fun _ _ hm => by cases hm
  · rintro m' hm' d op ops' joined' rfl heq
    obtain ⟨rfl, rfl, -⟩ := Message.initDocument.inj heq
    exact hops op (h.sent _ op hm')
  · intro d ops' joined' heq op hop
    obtain ⟨rfl, rfl, rfl⟩ := Message.initDocument.inj heq
    exact hop.elim (fun hop => hops op (h.came _ hop)) fun hop => hops op (h.joined _ rfl joined rfl _ hop)

theorem ServerOk.store (h : ServerOk inbox delivered relayed log pushes serving) (docId : Text) (op : π)
    (conn : Option Nat) :
    ServerOk inbox delivered relayed (log ++ [(docId, op)]) (pushes ++ [(docId, op, conn)]) serving :=
  { h with
    accepted := fun p hp => List.mem_append_left _ (h.accepted p hp)
    pushed := fun p hp => by
      rcases List.mem_append.mp hp with hp | hp
      · exact List.mem_append_left _ (h.pushed p hp)
      · rw [List.mem_singleton.mp hp]
        exact List.mem_append_right _ (List.mem_singleton.mpr rfl) }

theorem ServerOk.relay (h : ServerOk inbox delivered relayed log pushes serving) {k : Nat} {conn : Option Nat}
    (hk : pushes[k]? = some (docId, op, conn))
    (hclear : ∀ v ∈ serving, v.docId = docId → op ∈ v.ops) :
    ServerOk inbox delivered (relayed ++ [(docId, op)]) log (pushes.eraseIdx k) serving where
  ordered := h.ordered
  init := h.init
  sent d op' hm := List.mem_append_left _ (h.sent d op' hm)
  came p hp := List.mem_append_left _ (h.came p hp)
  accepted p hp := by
    rcases List.mem_append.mp hp with hp | hp
    · exact h.accepted p hp
    · rw [List.mem_singleton.mp hp]
      exact h.pushed _ (List.mem_of_getElem? hk)
  pushed p hp := h.pushed p (List.mem_of_mem_eraseIdx hp)
  serves v hv op' hop := by
    rcases List.mem_append.mp hop with hop | hop
    · exact h.serves v hv op' hop
    · obtain ⟨hd, rfl⟩ := Prod.mk.inj (List.mem_singleton.mp hop)
      exact hclear v hv hd
  joined v hv l hl p hp := List.mem_append_left _ (h.joined v hv l hl p hp)

end Server

variable [DecidableEq π]

theorem EntryOk.resolve (h : EntryOk link conn s.delivered docId entry) (hready : entry.ready = true) {read : Read}
    (hread : read.began ≤ conn) : ResultOk (s.resolve docId entry read) where
  contains op hop := by
    obtain ⟨⟨d, op⟩, hp, rfl⟩ := List.mem_map.mp hop
    obtain ⟨-, hp⟩ := List.mem_filter.mp hp
    obtain ⟨hd, hin⟩ := Bool.and_eq_true_iff.mp hp
    obtain rfl : d = docId := of_decide_eq_true hd
    rcases Bool.or_eq_true_iff.mp hin with hin | hin
    · exact h.delivered hready op (of_decide_eq_true hin)
    · exact h.joined hready op (of_decide_eq_true hin)
  joined := le_of_le_of_eq hread (h.conn hready).symm

theorem Inv.read (h : Inv s) (kind : Kind) (docId : Text) : Inv (s.read kind docId) := by
  unfold Fetcher.read
  split
  · rename_i entry hget
    have he := h.docs docId entry hget
    split
    · rename_i hready
      refine { h with results := results_append h.results fun r hr => ?_ }
      rw [List.mem_singleton.mp hr]
      exact he.resolve hready le_rfl
    · rename_i hready
      refine { h with docs := h.docs.set { he with waiting := fun r hr => ?_, idle := fun hr => absurd hr hready } }
      rcases List.mem_append.mp hr with hr | hr
      · exact he.waiting r hr
      · rw [List.mem_singleton.mp hr]
  · split
    · exact { h with docs := h.docs.set (.new le_rfl fun hst => by cases hst) }
    · rename_i hlink
      exact { h with docs := h.docs.set (.new le_rfl fun _ => hlink) }
    · refine { h with docs := ?_ }
      exact (h.docs.of_link fun _ => rfl).set (.new le_rfl fun _ => rfl)
    · exact { h with docs := h.docs.set (.new le_rfl fun hst => by cases hst) }

theorem Inv.answered (h : Inv s) (hget : s.docs.get docId = some entry) {c : Read × Stage}
    (hc : entry.call = some c) (hready : entry.ready = true) : Inv (s.answered docId entry c.1) := by
  have he := h.docs docId entry hget
  have hresult : ∀ r ∈ [s.resolve docId entry c.1], ResultOk r := fun r hr => by
    rw [List.mem_singleton.mp hr]
    exact he.resolve hready (he.calling c hc)
  have hresults := results_append h.results hresult
  unfold Fetcher.answered
  split
  · exact { h with results := hresults, docs := h.docs.set (he.ended hready) }
  · exact { h with results := hresults, docs := h.docs.delete docId }

theorem Inv.receive (h : Inv s) (hlink : s.link = .connected) {m : Message π} {inbox : List (Message π)}
    (hm : s.inbox = m :: inbox)
    (hfail : ∀ docId, m = .answer docId false → ∀ entry ∈ s.docs.get docId, entry.CanFail)
    (hstep : Fetcher.receive { s with inbox } m = some s') : Inv s' := by
  have hserver := h.server
  rw [hm] at hserver
  have htail : Inv { s with inbox } := { h with server := hserver.tail }
  cases m with
  | initDocument docId ops joined =>
    simp only [Fetcher.receive] at hstep
    split at hstep
    · obtain rfl := Option.some.inj hstep
      exact htail
    · rename_i entry hget
      obtain rfl := Option.some.inj hstep
      have he := h.docs docId entry hget
      have hops := hserver.init docId ops joined List.mem_cons_self
      have hready : EntryOk s.link s.conn s.delivered docId
          { entry with ready := true, ops := entry.ops ++ ops, waiting := [], conn := s.conn, joined } :=
        { called := fun hr => by cases hr
          starting := fun hs => by cases hlink.symm.trans (he.starting hs).1
          calling := he.calling
          waiting := fun r hr => by cases hr
          idle := fun _ => rfl
          conn := fun _ => rfl
          joined := fun _ op hop => List.mem_append_right _ (hops op (.inr hop))
          delivered := fun _ op hop => List.mem_append_right _ (hops op (.inl hop)) }
      refine { htail with docs := h.docs.set hready, results := results_append h.results fun r hr => ?_ }
      obtain ⟨read, hread, rfl⟩ := List.mem_map.mp hr
      exact hready.resolve rfl (he.waiting read hread)
  | receiveOperation docId op =>
    have hdelivered : ServerOk inbox (s.delivered ++ [(docId, op)]) s.relayed s.log s.pushes s.serving :=
      hserver.deliver
    simp only [Fetcher.receive] at hstep
    split at hstep
    · rename_i hnone
      obtain rfl := Option.some.inj hstep
      refine { h with server := hdelivered, docs := fun d e hget => (h.docs d e hget).deliver fun hd => ?_ }
      cases (hd ▸ hget).symm.trans hnone
    · rename_i entry hentry
      have he := h.docs docId entry hentry
      split at hstep
      · obtain rfl := Option.some.inj hstep
        have happlied : EntryOk s.link s.conn (s.delivered ++ [(docId, op)]) docId
            { entry with ops := entry.ops ++ [op] } := by
          refine EntryOk.deliver { he with joined := fun hr op' hop => ?_, delivered := fun hr op' hop => ?_ } ?_
          · exact List.mem_append_left _ (he.joined hr op' hop)
          · exact List.mem_append_left _ (he.delivered hr op' hop)
          · exact fun _ _ => List.mem_append_right _ (List.mem_singleton.mpr rfl)
        refine { h with server := hdelivered, docs := fun d e hget => ?_ }
        rw [KeyedMap.get_set] at hget
        split at hget
        · rename_i hd
          obtain rfl := Option.some.inj hget
          exact hd ▸ happlied
        · rename_i hd
          exact (h.docs d e hget).deliver fun hd' => absurd hd' hd
      · rename_i hready
        obtain rfl := Option.some.inj hstep
        refine { h with server := hdelivered, docs := fun d e hget => (h.docs d e hget).deliver fun hd hr => ?_ }
        obtain rfl := Option.some.inj ((hd ▸ hget).symm.trans hentry)
        exact absurd hr hready
  | answer docId ok =>
    simp only [Fetcher.receive] at hstep
    split at hstep
    · obtain rfl := Option.some.inj hstep
      exact htail
    · rename_i entry hget
      split at hstep
      · rename_i read conn hc
        split at hstep
        · obtain ⟨hready, rfl⟩ := Option.ite_some_none_eq_some.1 hstep
          exact htail.answered hget hc hready
        · rename_i hok
          obtain rfl := Option.some.inj hstep
          obtain rfl : ok = false := by simpa using hok
          exact htail.reject hget hc (hfail docId rfl entry hget)
      · obtain rfl := Option.some.inj hstep
        exact htail

theorem step_inv {e : Event π} (h : Inv s) (hclear : Clear s e) (hstep : step s e = some s') : Inv s' := by
  cases e with
  | read kind docId =>
    obtain rfl := Option.some.inj hstep
    exact h.read kind docId
  | started ok =>
    simp only [step] at hstep
    obtain ⟨-, rfl⟩ := Option.ite_some_none_eq_some.1 hstep
    split
    · rename_i hok
      subst hok
      exact h.started hclear
    · rename_i hok
      obtain rfl : ok = false := by simpa using hok
      exact h.notStarted hclear
  | drop =>
    simp only [step] at hstep
    obtain ⟨hlink, rfl⟩ := Option.ite_some_none_eq_some.1 hstep
    exact h.cut (fun hl => by cases hlink.symm.trans hl) _
  | closed =>
    simp only [step] at hstep
    obtain ⟨hlink, rfl⟩ := Option.ite_some_none_eq_some.1 hstep
    refine h.cut (fun hl => ?_) _
    rcases hlink with hlink | hlink <;> cases hlink.symm.trans hl
  | reconnected =>
    simp only [step] at hstep
    obtain ⟨hlink, rfl⟩ := Option.ite_some_none_eq_some.1 hstep
    exact h.reconnected (fun hl => by cases hlink.symm.trans hl) hclear
  | failed docId =>
    simp only [step] at hstep
    split at hstep
    · cases hstep
    · rename_i entry hget
      split at hstep
      · rename_i read conn hc
        split at hstep
        · cases hstep
        · obtain rfl := Option.some.inj hstep
          exact h.reject hget hc (hclear entry hget)
      · cases hstep
  | deliver =>
    simp only [step] at hstep
    split at hstep
    · rename_i m inbox hlink hm
      refine h.receive hlink hm (fun docId heq => ?_) hstep
      exact hclear m (by rw [hm]; rfl) docId (by rw [heq]; rfl)
    · cases hstep
  | serveRead ok =>
    simp only [step] at hstep
    split at hstep
    · rename_i docId requests hrequests hserving
      split at hstep
      · obtain rfl := Option.some.inj hstep
        have hread : ServerOk s.inbox s.delivered s.relayed s.log s.pushes
            (some ⟨docId, (s.log.filter fun p => p.1 = docId).map Prod.snd, none⟩) :=
          { h.server with
            serves := fun v hv op hop => by
              obtain rfl := Option.some.inj hv
              refine List.mem_map.mpr ⟨(docId, op), List.mem_filter.mpr ⟨h.server.accepted _ hop, ?_⟩, rfl⟩
              exact decide_eq_true rfl
            joined := fun v hv l hl => by
              obtain rfl := Option.some.inj hv
              cases hl }
        exact { h with server := hread }
      · obtain rfl := Option.some.inj hstep
        exact { h with server := h.server.answer docId false }
    · cases hstep
  | serveGroup =>
    simp only [step] at hstep
    split at hstep
    · rename_i docId ops hserving
      obtain rfl := Option.some.inj hstep
      have hgroup : ServerOk s.inbox s.delivered s.relayed s.log s.pushes (some ⟨docId, ops, some s.relayed⟩) :=
        { h.server with
          serves := fun v hv op hop => by
            obtain rfl := Option.some.inj hv
            exact h.server.serves _ hserving op hop
          joined := fun v hv l hl p hp => by
            obtain rfl := Option.some.inj hv
            obtain rfl := Option.some.inj hl
            exact hp }
      exact { h with server := hgroup }
    · cases hstep
  | serveInit =>
    simp only [step] at hstep
    split at hstep
    · rename_i docId ops joined hserving
      obtain rfl := Option.some.inj hstep
      have hserver := h.server
      rw [hserving] at hserver
      have hsent := hserver.init_sent.answer docId true
      rw [List.append_assoc] at hsent
      exact { h with server := hsent }
    · cases hstep
  | serveLeave =>
    simp only [step] at hstep
    split at hstep
    · obtain rfl := Option.some.inj hstep
      exact { h with }
    · cases hstep
  | store docId op own =>
    obtain rfl := Option.some.inj hstep
    exact { h with server := h.server.store docId op _ }
  | relay k =>
    simp only [step] at hstep
    split at hstep
    · cases hstep
    · rename_i docId op conn hk
      obtain rfl := Option.some.inj hstep
      have hrelay := h.server.relay hk (hclear _ hk)
      have hserver : ServerOk
          (if docId ∈ s.groups ∧ conn ≠ some s.conn then s.inbox ++ [.receiveOperation docId op] else s.inbox)
          s.delivered (s.relayed ++ [(docId, op)]) s.log (s.pushes.eraseIdx k) s.serving := by
        split
        · refine hrelay.send (fun _ _ _ _ _ _ _ heq => by cases heq) (fun _ _ _ heq => by cases heq) fun d op' heq => ?_
          obtain ⟨rfl, rfl⟩ := Message.receiveOperation.inj heq
          exact List.mem_append_right _ (List.mem_singleton.mpr rfl)
        · exact hrelay
      exact { h with server := hserver }

end Steps

theorem start_inv : Inv (start : Fetcher π) where
  stranded := rfl
  docs _ _ hget := by cases hget
  server :=
    { ordered := .nil
      init := fun _ _ _ hm => by cases hm
      sent := fun _ _ hm => by cases hm
      came := fun _ hp => by cases hp
      accepted := fun _ hp => by cases hp
      pushed := fun _ hp => by cases hp
      serves := fun _ hv => by cases hv
      joined := fun _ hv => by cases hv }
  results _ hr := by cases hr

theorem Inv.fresh {s : Fetcher π} (h : Inv s) : Fresh s where
  contains r hr := (h.results r hr).contains
  joined r hr := (h.results r hr).joined
  settled := by
    rintro ⟨hlink, hcalls⟩
    refine ⟨fun p hp => ?_, h.stranded⟩
    have he := h.docs p.1 p.2 (KeyedMap.mem_iff.mp hp)
    have hcall : p.2.call = none := by
      by_contra hne
      obtain ⟨c, hc⟩ := Option.ne_none_iff_exists'.mp hne
      have hstarting : p.2.isStarting = true := by
        rw [DocEntry.isStarting, hc]
        exact decide_eq_true (hcalls p hp c hc)
      exact hlink (he.starting hstarting).1
    refine ⟨hcall, he.idle ?_⟩
    by_contra hready
    have hsome := he.called (by simpa using hready)
    rw [hcall] at hsome
    cases hsome

/-- The reads of closed documents give what they owe, from replicas that are joined, and none waits for ever. -/
theorem reads_fresh [DecidableEq π] (s : Fetcher π) (hrun : Run step Clear start s) : Fresh s :=
  (hrun.invariant Inv start_inv fun _ _ _ h hclear hstep => step_inv h hclear hstep).fresh

/-- A first read whose document holds an operation, a second one that waits for it, and a third one after an
operation that is relayed to the replica. -/
theorem reads_fresh_cached :
    ∃ s : Fetcher ℕ, s.results.map (·.ops) = [[0], [0], [0, 1]] ∧ s.results.map (·.owed) = [[0], [0], [0, 1]] ∧
      Fresh s :=
  ⟨_, by decide +kernel, by decide +kernel, reads_fresh _ (run_of_exec
    [.store ['a'] 0 false, .relay 0, .read .content ['a'], .read .state ['a'], .started true, .serveRead true,
      .serveGroup, .serveInit, .deliver, .deliver, .store ['a'] 1 false, .relay 0, .deliver, .read .content ['a']]
    _ _ rfl)⟩

/-- The server refuses the first read of a document; the next one waits for an initial state that nobody asks
for. -/
theorem read_waits_forever : ¬ ∀ s : Fetcher ℕ, Run step (fun _ _ => True) start s → Fresh s := by
  intro h
  have hrun : Run (step (π := ℕ)) (fun _ _ => True) start _ := run_of_exec
    [.read .content ['a'], .started true, .serveRead false, .deliver, .read .content ['a']] _ _ rfl
  have hsettled := ((h _ hrun).settled (by decide +kernel)).1
  revert hsettled
  decide +kernel

end Savoire.DocumentFetcher
