import Savoire.Index.ContentIndexing

/-! The indexes of two vaults do not mix. -/
namespace Savoire.ContentIndexing
open Transition

/-- An instance made since the last change of vault. -/
def Live (g stamp : Nat) (c : Contributor) : Prop := g ≤ c.stamp ∧ c.stamp ≤ stamp

/-- The instances made since the last change of vault were given the entries of this vault alone, and none was
given those of two vaults. -/
structure ReceivedOk (g stamp : Nat) (vault : Text) (received : List (Contributor × Text)) : Prop where
  recent : ∀ r ∈ received, r.1.stamp ≤ stamp ∧ (g ≤ r.1.stamp → r.2 = vault)
  single : ∀ c v v', (c, v) ∈ received → (c, v') ∈ received → v = v'

def WritesOk (writes : List Write) : Prop := ∀ w ∈ writes, ∀ v ∈ w.sources, v = w.vault

def SubOk (g stamp : Nat) (vault : Text) (b : Subscription) : Prop :=
  Live g stamp b.contributor ∧ b.session.vault = vault

section Given
variable {g stamp : Nat} {vault : Text} {received : List (Contributor × Text)} {c : Contributor} {s : Service}

theorem ReceivedOk.give (h : ReceivedOk g stamp vault received) (hc : Live g stamp c) :
    ReceivedOk g stamp vault (received ++ [(c, vault)]) := by
  have hnew : ∀ v, (c, v) ∈ received ++ [(c, vault)] → v = vault := by
    intro v hv
    rcases List.mem_append.mp hv with hv | hv
    · exact (h.recent _ hv).2 hc.1
    · exact (Prod.mk.inj (List.mem_singleton.mp hv)).2
  have hold : ∀ c' v, c' ≠ c → (c', v) ∈ received ++ [(c, vault)] → (c', v) ∈ received := by
    intro c' v hne hv
    rcases List.mem_append.mp hv with hv | hv
    · exact hv
    · exact absurd (Prod.mk.inj (List.mem_singleton.mp hv)).1 hne
  constructor
  · rintro ⟨c', v⟩ hr
    by_cases hcc : c' = c
    · subst hcc
      exact ⟨hc.2, fun _ => hnew v hr⟩
    · exact h.recent _ (hold c' v hcc hr)
  · intro c' v v' hv hv'
    by_cases hcc : c' = c
    · subst hcc
      rw [hnew v hv, hnew v' hv']
    · exact h.single c' v v' (hold c' v hcc hv) (hold c' v' hcc hv')

theorem ReceivedOk.retire (h : ReceivedOk g stamp vault received) (vault' : Text) :
    ReceivedOk (stamp + 1) (stamp + 1) vault' received where
  recent r hr := by
    have hle := (h.recent r hr).1
    exact ⟨by omega, fun hg => by omega⟩
  single := h.single

theorem feed_spec {b : Subscription} (hb : SubOk g stamp vault b) (h : ReceivedOk g stamp vault s.received) :
    ∃ received, s.feed b = { s with received } ∧ ReceivedOk g stamp vault received := by
  unfold Service.feed
  split
  · exact ⟨_, rfl, h⟩
  · refine ⟨_, rfl, ?_⟩
    rw [hb.2]
    exact h.give hb.1

theorem foldl_feed_spec {l : List Subscription} (hl : ∀ b ∈ l, SubOk g stamp vault b)
    (h : ReceivedOk g stamp vault s.received) :
    ∃ received, l.foldl Service.feed s = { s with received } ∧ ReceivedOk g stamp vault received := by
  induction l generalizing s with
  | nil => exact ⟨_, rfl, h⟩
  | cons b l ih =>
    obtain ⟨received, hfeed, hr⟩ := feed_spec (hl b List.mem_cons_self) h
    rw [List.foldl_cons, hfeed]
    exact ih (s := { s with received }) (fun b' hb' => hl b' (List.mem_cons_of_mem b hb')) hr

theorem changed_spec (hsubs : ∀ b ∈ s.subscriptions, SubOk g stamp vault b) (h : ReceivedOk g stamp vault s.received)
    (ns : Text) (session : Session) :
    ∃ received, s.changed ns session = { s with received } ∧ ReceivedOk g stamp vault received :=
  foldl_feed_spec (fun b hb => hsubs b (List.mem_filter.mp hb).1) h

theorem forget_spec (hsubs : ∀ b ∈ s.subscriptions, SubOk g stamp vault b)
    (h : ReceivedOk g stamp vault s.received) :
    ∃ received, s.forgetDocument = { s with received } ∧ ReceivedOk g stamp vault received := by
  have hfold : ∀ (l : List (Text × Session)) (s : Service), (∀ b ∈ s.subscriptions, SubOk g stamp vault b) →
      ReceivedOk g stamp vault s.received →
      ∃ received, l.foldl (fun s p => s.changed p.1 p.2) s = { s with received } ∧
        ReceivedOk g stamp vault received := by
    intro l
    induction l with
    | nil => exact fun s _ h => ⟨_, rfl, h⟩
    | cons p l ih =>
      intro s hsubs h
      obtain ⟨received, hchanged, hr⟩ := changed_spec hsubs h p.1 p.2
      rw [List.foldl_cons, hchanged]
      exact ih { s with received } hsubs hr
  exact hfold _ s hsubs h

end Given

section Pass
variable {g stamp : Nat} {s : Service}

theorem WritesOk.add {writes : List Write} (h : WritesOk writes) {w : Write} (hw : ∀ v ∈ w.sources, v = w.vault) :
    WritesOk (writes ++ [w]) := by
  intro w' hw'
  rcases List.mem_append.mp hw' with hw' | hw'
  · exact h w' hw'
  · rw [List.mem_singleton.mp hw']
    exact hw

theorem setEntries_spec (hsubs : ∀ b ∈ s.subscriptions, SubOk g stamp s.vault b)
    (h : ReceivedOk g stamp s.vault s.received) (hw : WritesOk s.writes) {ns : Text} {session : Session}
    (hsession : session.vault = s.vault) :
    ∃ received writes, s.setEntries ns session s.vault = { s with received, writes } ∧
      ReceivedOk g stamp s.vault received ∧ WritesOk writes := by
  unfold Service.setEntries
  split
  · exact ⟨_, _, rfl, h, hw⟩
  · obtain ⟨received, hchanged, hr⟩ :=
      changed_spec (s := { s with writes := s.writes ++ [⟨session.vault, [s.vault]⟩] }) hsubs h ns session
    refine ⟨received, _, hchanged, hr, hw.add fun v hv => ?_⟩
    rw [List.mem_singleton.mp hv, hsession]

theorem indexDocument_spec {l : List Contributor} (hl : ∀ c ∈ l, Live g stamp c)
    (hsubs : ∀ b ∈ s.subscriptions, SubOk g stamp s.vault b) (hstorage : s.storage = s.vault)
    (hchannels : ∀ ns session, s.channels.get ns = some session → session.vault = s.vault)
    (h : ReceivedOk g stamp s.vault s.received) (hw : WritesOk s.writes) :
    ∃ received writes, (Service.indexDocument s.vault l s).1 = { s with received, writes } ∧
      ReceivedOk g stamp s.vault received ∧ WritesOk writes ∧
      ∀ rest ∈ (Service.indexDocument s.vault l s).2, ∀ c ∈ rest, Live g stamp c := by
  induction l generalizing s with
  | nil => exact ⟨_, _, rfl, h, hw, fun rest hrest => by cases hrest⟩
  | cons c l ih =>
    have hl' : ∀ c' ∈ l, Live g stamp c' := fun c' hc' => hl c' (List.mem_cons_of_mem c hc')
    unfold Service.indexDocument
    split
    · cases hget : s.channels.get c.ns with
      | none => exact ih hl' hsubs hstorage hchannels h hw
      | some session =>
        have hsession := hchannels c.ns session hget
        obtain ⟨received, writes, hset, hr, hw'⟩ := @setEntries_spec _ _ _ hsubs h hw c.ns session hsession
        rw [Option.elim_some, hset]
        exact ih (s := { s with received, writes }) hl' hsubs hstorage hchannels hr hw'
    · have hr := h.give (hl c List.mem_cons_self)
      refine ⟨_, _, rfl, hr, hw.add fun v hv => ?_, fun rest hrest => ?_⟩
      · obtain ⟨⟨c', v'⟩, hmem, rfl⟩ := List.mem_map.mp hv
        obtain ⟨hmem, hc'⟩ := List.mem_filter.mp hmem
        obtain rfl : c' = c := of_decide_eq_true hc'
        exact ((hr.recent _ hmem).2 (hl c' List.mem_cons_self).1).trans hstorage.symm
      · obtain rfl := Option.some.inj hrest
        exact hl'

end Pass

section Open
variable {g stamp : Nat} {vault : Text} {session : Session}

theorem openChannels_spec {l : List Contributor} {s : Service} (hsession : session.vault = vault)
    (hl : ∀ c ∈ l, Live g stamp c) (hnodup : (l.map Contributor.ns).Nodup)
    (hfresh : ∀ c ∈ l, c.ns ∉ s.channels.entries.map Prod.fst) (h : ReceivedOk g stamp vault s.received) :
    ∃ channels received, l.foldl (fun s c => s.openChannel session c) s =
        { s with
          channels
          subscriptions := s.subscriptions ++ l.map fun c => ⟨c.ns, session, c⟩
          received } ∧
      channels.entries = s.channels.entries ++ l.map (fun c => (c.ns, session)) ∧
      ReceivedOk g stamp vault received := by
  induction l generalizing s with
  | nil => exact ⟨s.channels, s.received, by simp, by simp, h⟩
  | cons c l ih =>
    obtain ⟨hnew, hnodup⟩ := List.nodup_cons.mp hnodup
    have hset : (s.channels.set c.ns session).entries = s.channels.entries ++ [(c.ns, session)] :=
      KeyedMap.entries_set (hfresh c List.mem_cons_self)
    obtain ⟨received, hfeed, hr⟩ := feed_spec (b := ⟨c.ns, session, c⟩)
      (s := { s with channels := s.channels.set c.ns session, subscriptions := s.subscriptions ++ [⟨c.ns, session, c⟩] })
      ⟨hl c List.mem_cons_self, hsession⟩ h
    obtain ⟨channels, received', hopen, hentries, hr'⟩ := ih
      (s := { s with
        channels := s.channels.set c.ns session
        subscriptions := s.subscriptions ++ [⟨c.ns, session, c⟩]
        received })
      (fun c' hc' => hl c' (List.mem_cons_of_mem c hc')) hnodup
      (fun c' hc' hmem => by
        rw [hset, List.map_append, List.mem_append] at hmem
        rcases hmem with hmem | hmem
        · exact hfresh c' (List.mem_cons_of_mem c hc') hmem
        · have hns : c'.ns = c.ns := List.mem_singleton.mp hmem
          exact hnew (hns ▸ List.mem_map_of_mem hc'))
      hr
    refine ⟨channels, received', ?_, ?_, hr'⟩
    · rw [List.foldl_cons, Service.openChannel, hfeed, hopen]
      simp
    · rw [hentries, hset]
      simp

end Open

def StageOk (g stamp : Nat) (vault : Text) : Stage → Prop
  | .loading c from_ rest => from_ = vault ∧ Live g stamp c ∧ ∀ c' ∈ rest, Live g stamp c'
  | .opening => True

/-- `g` is the number of the first instance made by the last change of vault. -/
structure InvAt (g : Nat) (s : Service) : Prop where
  stamp : g ≤ s.stamp
  storage : s.storage = s.vault
  current : ∀ ns c, s.current.get ns = some c → c.ns = ns ∧ Live g s.stamp c
  received : ReceivedOk g s.stamp s.vault s.received
  writes : WritesOk s.writes
  passes : ∀ p ∈ s.passes, p.rest ≠ [] → p.vault = s.vault ∧ ∀ c ∈ p.rest, Live g s.stamp c
  switches : ∀ w ∈ s.switches, w.vault = s.vault ∧ StageOk g s.stamp s.vault w.stage
  single : s.switches.length ≤ 1
  pending : s.switches ≠ [] → s.expected = []
  channels : s.channels.entries = s.expected
  subscriptions : s.subscriptions.map (fun b => (b.ns, b.session)) = s.expected
  live : ∀ b ∈ s.subscriptions, Live g s.stamp b.contributor
  opened : ∀ p ∈ s.expected, p.2.vault = s.vault ∧ p ∉ s.disposed

section Steps
variable {g : Nat} {s s' : Service} {k : Nat}

theorem InvAt.subOk (h : InvAt g s) : ∀ b ∈ s.subscriptions, SubOk g s.stamp s.vault b := by
  intro b hb
  have hmem : (b.ns, b.session) ∈ s.expected := h.subscriptions ▸ List.mem_map_of_mem hb
  exact ⟨h.live b hb, (h.opened _ hmem).1⟩

theorem InvAt.channelOk (h : InvAt g s) (ns : Text) (session : Session) (hget : s.channels.get ns = some session) :
    session.vault = s.vault := by
  have hmem : (ns, session) ∈ s.expected := h.channels ▸ KeyedMap.mem_iff.mpr hget
  exact (h.opened _ hmem).1

theorem Live.mono {stamp stamp' : Nat} {c : Contributor} (h : Live g stamp c) (hle : stamp ≤ stamp') :
    Live g stamp' c := ⟨h.1, h.2.trans hle⟩

theorem InvAt.registerFactory (h : InvAt g s) (ns : Text) (isShared : Bool) :
    InvAt g (s.registerFactory ns isShared) := by
  have hle : s.stamp ≤ s.stamp + 1 := Nat.le_succ _
  refine
    { h with
      stamp := h.stamp.trans hle
      current := fun ns' c hget => ?_
      received := ⟨fun r hr => ?_, h.received.single⟩
      passes := fun p hp hrest => ?_
      switches := fun w hw => ?_
      live := fun b hb => (h.live b hb).mono hle }
  · rw [Service.registerFactory, KeyedMap.get_set] at hget
    split at hget
    · rename_i hns
      obtain rfl := Option.some.inj hget
      exact ⟨hns.symm, h.stamp.trans hle, le_rfl⟩
    · obtain ⟨hns, hlive⟩ := h.current ns' c hget
      exact ⟨hns, hlive.mono hle⟩
  · obtain ⟨hstamp, hv⟩ := h.received.recent r hr
    exact ⟨hstamp.trans hle, hv⟩
  · obtain ⟨hv, hl⟩ := h.passes p hp hrest
    exact ⟨hv, fun c hc => (hl c hc).mono hle⟩
  · obtain ⟨hv, hst⟩ := h.switches w hw
    refine ⟨hv, ?_⟩
    revert hst
    cases w.stage with
    | loading c from_ rest => exact fun hst => ⟨hst.1, hst.2.1.mono hle, fun c' hc' => (hst.2.2 c' hc').mono hle⟩
    | opening => exact fun hst => hst

theorem restoreNext_ok {l : List Contributor} (hl : ∀ c ∈ l, Live g s.stamp c) (hstorage : s.storage = s.vault) :
    StageOk g s.stamp s.vault (s.restoreNext l) := by
  induction l with
  | nil => trivial
  | cons c l ih =>
    have hl' : ∀ c' ∈ l, Live g s.stamp c' := fun c' hc' => hl c' (List.mem_cons_of_mem c hc')
    unfold Service.restoreNext
    split
    · exact ih hl'
    · exact ⟨hstorage, hl c List.mem_cons_self, hl'⟩

section
variable (h : InvAt g s)
include h

theorem InvAt.registered : ∀ c ∈ s.getAllRegistered, Live g s.stamp c := by
  intro c hc
  obtain ⟨⟨ns, c'⟩, hmem, rfl⟩ := List.mem_map.mp hc
  exact (h.current ns c' (KeyedMap.mem_iff.mp hmem)).2

theorem InvAt.switchVault (hidle : s.switches = []) (hpasses : ∀ p ∈ s.passes, p.rest = [])
    (vault : Text) : InvAt (s.stamp + 1) (s.switchVault vault) := by
  have hcurrent : ∀ ns c, (s.switchVault vault).current.get ns = some c →
      c.ns = ns ∧ Live (s.stamp + 1) (s.stamp + 1) c := by
    intro ns c hget
    simp only [Service.switchVault, Service.rebuild, Service.closeChannels, KeyedMap.get_map,
      Option.map_eq_some_iff] at hget
    obtain ⟨isShared, -, rfl⟩ := hget
    exact ⟨rfl, le_rfl, le_rfl⟩
  exact
    { stamp := le_rfl
      storage := rfl
      current := hcurrent
      received := h.received.retire vault
      writes := h.writes
      passes := fun p hp hrest => absurd (hpasses p hp) hrest
      switches := fun w hw => by
        simp only [Service.switchVault, hidle, List.nil_append, List.mem_singleton] at hw
        subst hw
        refine ⟨rfl, restoreNext_ok (fun c hc => ?_) rfl⟩
        obtain ⟨⟨ns, c'⟩, hmem, rfl⟩ := List.mem_map.mp hc
        exact (hcurrent ns c' (KeyedMap.mem_iff.mp hmem)).2
      single := by simp [Service.switchVault, hidle]
      pending := fun _ => rfl
      channels := rfl
      subscriptions := rfl
      live := fun b hb => by cases hb
      opened := fun p hp => by cases hp }

theorem InvAt.runPass {l : List Contributor} (hl : ∀ c ∈ l, Live g s.stamp c) :
    InvAt g (s.runPass s.vault l) := by
  obtain ⟨received, writes, hpass, hr, hw, hrest⟩ :=
    indexDocument_spec hl h.subOk h.storage h.channelOk h.received h.writes
  have hkept : InvAt g { s with received, writes } := { h with received := hr, writes := hw }
  unfold Service.runPass
  split
  · rename_i s' heq
    obtain rfl : s' = _ := (congrArg Prod.fst heq).symm.trans hpass
    exact hkept
  · rename_i s' rest heq
    obtain rfl : s' = _ := (congrArg Prod.fst heq).symm.trans hpass
    refine { hkept with passes := fun p hp hne => ?_ }
    rcases List.mem_append.mp hp with hp | hp
    · exact h.passes p hp hne
    · rw [List.mem_singleton.mp hp]
      exact ⟨rfl, hrest rest (by rw [heq]; rfl)⟩

theorem InvAt.eraseIdx {w : Switch} (hk : s.switches[k]? = some w) : s.switches.eraseIdx k = [] := by
  have hlt : k < s.switches.length := (List.getElem?_eq_some_iff.mp hk).1
  have hsingle := h.single
  have hlen := List.length_eraseIdx_of_lt hlt
  exact List.eq_nil_of_length_eq_zero (by omega)

theorem InvAt.endSwitch {w : Switch} (hk : s.switches[k]? = some w) :
    InvAt g { s with switches := s.switches.eraseIdx k } := by
  rw [h.eraseIdx hk]
  exact
    { h with
      switches := fun w hw => by cases hw
      single := Nat.zero_le 1
      pending := fun hne => absurd rfl hne }

theorem registered_ns : s.getAllRegistered.map Contributor.ns = s.current.entries.map Prod.fst := by
  rw [Service.getAllRegistered, List.map_map]
  refine List.map_congr_left fun p hp => ?_
  exact (h.current p.1 p.2 (KeyedMap.mem_iff.mp hp)).1

theorem InvAt.openChannels (hidle : s.switches = []) (hexpected : s.expected = []) {session : Session}
    (hsession : session.vault = s.vault) (hnew : ∀ p ∈ s.disposed, p.2 ≠ session) :
    InvAt g ({ s with
      expected := (s.getAllRegistered.filter fun c => c.isShared).map fun c => (c.ns, session) :
        Service }.openChannels session) := by
  have hchannels : s.channels.entries = [] := h.channels.trans hexpected
  have hsubs : s.subscriptions = [] := List.map_eq_nil_iff.mp (h.subscriptions.trans hexpected)
  have hlive : ∀ c ∈ s.getAllRegistered.filter fun c => c.isShared, Live g s.stamp c :=
    fun c hc => h.registered c (List.mem_filter.mp hc).1
  have hnodup : ((s.getAllRegistered.filter fun c => c.isShared).map Contributor.ns).Nodup := by
    refine List.Nodup.sublist (List.filter_sublist.map Contributor.ns) ?_
    rw [registered_ns h]
    exact s.current.nodup
  obtain ⟨channels, received, hopen, hentries, hr⟩ := openChannels_spec (s :=
    { s with expected := (s.getAllRegistered.filter fun c => c.isShared).map fun c => (c.ns, session) })
    hsession hlive hnodup (fun c _ hmem => by rw [hchannels] at hmem; cases hmem) h.received
  unfold Service.openChannels
  refine hopen ▸ ?_
  rw [hchannels, List.nil_append] at hentries
  exact
    { h with
      received := hr
      pending := fun hne => absurd hidle hne
      channels := hentries
      subscriptions := by
        rw [hsubs, List.nil_append, List.map_map]
        rfl
      live := fun b hb => by
        rw [hsubs, List.nil_append] at hb
        obtain ⟨c, hc, rfl⟩ := List.mem_map.mp hb
        exact hlive c hc
      opened := fun p hp => by
        obtain ⟨c, hc, rfl⟩ := List.mem_map.mp hp
        exact ⟨hsession, fun hmem => hnew _ hmem rfl⟩ }

theorem step_inv {e : Event} (hclear : Clear s e) (hstep : step s e = some s') :
    ∃ g, InvAt g s' := by
  cases e with
  | registerFactory ns isShared =>
    obtain rfl := Option.some.inj hstep
    exact ⟨g, h.registerFactory ns isShared⟩
  | setDisabled namespaces =>
    obtain rfl := Option.some.inj hstep
    exact ⟨g, { h with }⟩
  | switchVault vault =>
    obtain rfl := Option.some.inj hstep
    exact ⟨_, h.switchVault hclear.1 hclear.2 vault⟩
  | loaded k saved =>
    simp only [step] at hstep
    split at hstep
    · rename_i vault c from_ rest hk
      obtain rfl := Option.some.inj hstep
      obtain ⟨hvault, rfl, hc, hrest⟩ := h.switches _ (List.mem_of_getElem? hk)
      refine ⟨g, { h with received := ?_, switches := fun w hw => ?_, single := ?_, pending := fun _ => ?_ }⟩
      · show ReceivedOk g s.stamp s.vault (if saved then s.received ++ [(c, s.vault)] else s.received)
        split
        · exact h.received.give hc
        · exact h.received
      · rcases List.mem_or_eq_of_mem_set hw with hw | rfl
        · exact h.switches w hw
        · exact ⟨hvault, restoreNext_ok hrest h.storage⟩
      · rw [List.length_set]
        exact h.single
      · exact h.pending (List.ne_nil_of_mem (List.mem_of_getElem? hk))
    · cases hstep
  | loadFailed k =>
    simp only [step] at hstep
    split at hstep
    · rename_i hk
      obtain rfl := Option.some.inj hstep
      exact ⟨g, h.endSwitch hk⟩
    · cases hstep
  | opened k session =>
    simp only [step] at hstep
    split at hstep
    · rename_i vault hk
      have hend := h.endSwitch hk
      have hvault : vault = s.vault := (h.switches _ (List.mem_of_getElem? hk)).1
      have hexpected := h.pending (List.ne_nil_of_mem (List.mem_of_getElem? hk))
      split at hstep
      · obtain rfl := Option.some.inj hstep
        exact ⟨g, hend⟩
      · split at hstep
        · rename_i hsession
          obtain rfl := Option.some.inj hstep
          exact ⟨g, hend.openChannels (h.eraseIdx hk) hexpected (hsession.trans hvault) hclear⟩
        · cases hstep
    · cases hstep
  | index =>
    obtain rfl := Option.some.inj hstep
    exact ⟨g, h.runPass fun c hc => h.registered c (List.mem_filter.mp hc).1⟩
  | saved k ok =>
    simp only [step] at hstep
    split at hstep
    · rename_i source rest hk
      obtain rfl := Option.some.inj hstep
      have hkept : InvAt g { s with passes := s.passes.eraseIdx k } :=
        { h with passes := fun p hp => h.passes p (List.mem_of_mem_eraseIdx hp) }
      split
      · by_cases hrest : rest = []
        · subst hrest
          exact ⟨g, hkept⟩
        · obtain ⟨hsource, hlive⟩ := h.passes _ (List.mem_of_getElem? hk) hrest
          obtain rfl : source = s.vault := hsource
          exact ⟨g, hkept.runPass hlive⟩
      · exact ⟨g, hkept⟩
    · cases hstep
  | forget =>
    obtain rfl := Option.some.inj hstep
    obtain ⟨received, hforget, hr⟩ := forget_spec h.subOk h.received
    rw [hforget]
    exact ⟨g, { h with received := hr }⟩
  | remote ns session =>
    obtain rfl := Option.some.inj hstep
    obtain ⟨received, hchanged, hr⟩ := changed_spec h.subOk h.received ns session
    rw [hchanged]
    exact ⟨g, { h with received := hr }⟩

theorem InvAt.separated : Separated s where
  writes := h.writes
  received := h.received.single
  channels _ := ⟨h.channels, h.channels ▸ s.channels.nodup, h.subscriptions, h.opened⟩

end

theorem start_inv (vault : Text) : InvAt 0 (start vault) where
  stamp := le_rfl
  storage := rfl
  current _ _ hget := by cases hget
  received := ⟨fun _ hr => (by cases hr), fun _ _ _ hv => by cases hv⟩
  writes _ hw := by cases hw
  passes _ hp := by cases hp
  switches _ hw := by cases hw
  single := Nat.zero_le 1
  pending hne := absurd rfl hne
  channels := rfl
  subscriptions := rfl
  live _ hb := by cases hb
  opened _ hp := by cases hp

end Steps

instance (s : Service) : DecidablePred (Clear s)
  | .switchVault _ => inferInstanceAs (Decidable (s.switches = [] ∧ ∀ p ∈ s.passes, p.rest = []))
  | .opened _ (some session) => inferInstanceAs (Decidable (∀ p ∈ s.disposed, p.2 ≠ session))
  | .opened _ none | .registerFactory .. | .setDisabled _ | .loaded .. | .loadFailed _ | .index | .saved .. | .forget
  | .remote .. => isTrue trivial

/-- The indexes of the vaults that are opened one after the other do not mix. -/
theorem indexes_separated (vault : Text) (s : Service) (hrun : Run step Clear (start vault) s) : Separated s := by
  have hinv := hrun.invariant (fun s => ∃ g, InvAt g s) ⟨0, start_inv vault⟩ fun _ _ _ ⟨_, h⟩ hclear hstep =>
    step_inv h hclear hstep
  obtain ⟨g, h⟩ := hinv
  exact h.separated

/-- A note is indexed in one vault, then in the one that is opened next. -/
theorem indexes_separated_next :
    ∃ s : Service, s.writes.map (·.vault) = [['a'], ['a'], ['b'], ['b']] ∧ Separated s :=
  ⟨_, by decide +kernel, indexes_separated ['a'] _ (run_of_exec
    [.registerFactory ['l'] true, .registerFactory ['f'] false, .switchVault ['a'], .loaded 0 false,
      .opened 0 (some ⟨0, ['a']⟩), .index, .saved 0 true, .switchVault ['b'], .loaded 0 true,
      .opened 0 (some ⟨1, ['b']⟩), .index, .saved 0 true] _ _ rfl)⟩

/-- A vault is opened while a note of the last one waits for a snapshot to be saved: its entries are then written in
the channel of the new vault. -/
theorem note_crosses : ¬ ∀ s, Run step (fun _ _ => True) (start ['a']) s → Separated s := by
  intro h
  have hrun : Run step (fun _ _ => True) (start ['a']) _ := run_of_exec
    [.registerFactory ['f'] false, .registerFactory ['l'] true, .switchVault ['a'], .loaded 0 false,
      .opened 0 (some ⟨0, ['a']⟩), .index, .switchVault ['b'], .loaded 0 false, .opened 0 (some ⟨1, ['b']⟩),
      .saved 0 true] _ _ rfl
  have hwrites := (h _ hrun).writes
  revert hwrites
  decide +kernel

end Savoire.ContentIndexing
