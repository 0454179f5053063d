import Savoire.Indexer.Reader

/-! The reader of the feed passes over no row of its scope: every change is delivered, by itself or by
a later change of its resource, or its vault was deleted and this deletion is delivered. -/
namespace Savoire.Indexer
open Access Transition

/-- `c` is read, by itself or by a later change of its resource, or such a row is still to come. -/
def Tracked (s : State) (c : IndexerChange) : Prop :=
  (∃ d ∈ s.seen, Later c d) ∨ ∃ d ∈ pending s.rows s.last, Later c d

/-- The vault of `c` was deleted after `c`. -/
def Purged (f : Feed) (c : IndexerChange) : Prop :=
  c.kind ≠ .vaultDeleted ∧ ∃ g ∈ f.purges, g.vaultId = c.vaultId ∧ c.seq < g.seq

structure Inv (sc : Scope) (s : State) : Prop where
  sorted : s.rows.Pairwise (·.change.seq < ·.change.seq)
  formed : ∀ r ∈ s.rows, Formed s.store.vaultDocuments r
  rows : ∀ r ∈ s.rows, r.change ∈ s.committed
  bounded : ∀ c ∈ s.committed, c.seq ≤ s.sequence
  purges : ∀ g ∈ s.purges, g ∈ s.committed ∧ g.kind = .vaultDeleted
  tracked : ∀ c ∈ s.committed, sc.inScope c → Tracked s c ∨ Purged s.toFeed c
  seenSorted : s.seen.Pairwise (·.seq < ·.seq)
  seen : ∀ d ∈ s.seen, d.seq ≤ s.last ∧ d ∈ s.committed ∧ sc.inScope d
  cursor : 0 ≤ s.cursor
  last : s.last ≤ s.sequence
  reading : ∀ r, s.reading = some r → r.result.length < r.limit ∧ r.since = s.cursor ∧ r.since ≤ r.last

variable {c : IndexerChange}

section Invariant
variable {sc : Scope} {s s' : State}

theorem inv_init : Inv sc init where
  sorted := List.Pairwise.nil
  formed := by simp [init]
  rows := by simp [init]
  bounded := by simp [init]
  purges := by simp [init]
  tracked := by simp [init]
  seenSorted := List.Pairwise.nil
  seen := by simp [init, State.seen]
  cursor := Int.le_refl _
  last := Int.le_refl _
  reading := by simp [init]

variable {f : Feed} {row : IndexerChangeEntity}

theorem Written.tracked (hw : Written s.toFeed f row) (h : Inv sc s)
    (hc : Tracked s c) : Tracked (s.setFeed f) c ∨ Purged f c := by
  obtain hseen | ⟨d, hd, hcd⟩ := hc
  · exact .inl (.inl hseen)
  · obtain ⟨⟨x, hx, rfl⟩, hlast⟩ := mem_pending.1 hd
    obtain ⟨keep, hrows, hdrop⟩ := hw.rows
    have hnew : s.last < row.change.seq := Int.lt_of_le_of_lt h.last hw.seq
    have hbefore : x.change.seq < row.change.seq :=
      Int.lt_of_le_of_lt (h.bounded _ (h.rows x hx)) hw.seq
    by_cases hkeep : keep x = true
    · refine .inl (.inr ⟨x.change, mem_pending.2 ⟨⟨x, ?_, rfl⟩, hlast⟩, hcd⟩)
      change x ∈ f.rows
      rw [hrows, List.mem_append, List.mem_filter]
      exact .inl ⟨hx, hkeep⟩
    · obtain hkey | ⟨hpurge, hvault, hkind⟩ := hdrop x hx (by simpa using hkeep)
      · obtain ⟨hvault, hkind, hdoc⟩ := (h.formed x hx).same hw.formedRow hkey
        have hlater : Later x.change row.change := ⟨Int.le_of_lt hbefore, hvault, hkind, hdoc⟩
        refine .inl (.inr ⟨row.change, mem_pending.2 ⟨⟨row, ?_, rfl⟩, hnew⟩, hcd.trans hlater⟩)
        change row ∈ f.rows
        rw [hrows]
        exact List.mem_append_right _ (List.mem_singleton.2 rfl)
      · refine .inr ⟨?_, row.change, hpurge, ?_, Int.lt_of_le_of_lt hcd.seq hbefore⟩
        · rw [← hcd.kind]
          exact hkind
        · rw [← hvault, hcd.vaultId]

theorem Written.purged (hw : Written s.toFeed f row) (hc : Purged s.toFeed c) : Purged f c := by
  obtain ⟨hkind, g, hg, hgc⟩ := hc
  refine ⟨hkind, g, ?_, hgc⟩
  obtain hp | ⟨hp, -⟩ := hw.purges
  · rwa [hp]
  · rw [hp]
    exact List.mem_append_left _ hg

theorem inv_write (h : Inv sc s) (hw : Written s.toFeed f row) :
    Inv sc (s.setFeed f) := by
  obtain ⟨keep, hrows, hdrop⟩ := hw.rows
  have hmem : ∀ r, r ∈ f.rows → r ∈ s.rows ∨ r = row := by
    intro r hr
    rw [hrows, List.mem_append, List.mem_filter, List.mem_singleton] at hr
    exact hr.imp And.left id
  have hcommitted : ∀ c, c ∈ f.committed ↔ c ∈ s.committed ∨ c = row.change := by
    intro c
    rw [hw.committed, List.mem_append, List.mem_singleton]
  constructor
  case sorted =>
    change f.rows.Pairwise _
    rw [hrows]
    refine List.pairwise_append.2 ⟨h.sorted.filter _, List.pairwise_singleton .., fun x hx y hy => ?_⟩
    rw [List.mem_singleton.1 hy]
    exact Int.lt_of_le_of_lt (h.bounded _ (h.rows x (List.mem_filter.1 hx).1)) hw.seq
  case formed =>
    intro r hr
    refine hw.formed r hr ?_
    obtain hr | rfl := hmem r hr
    · exact h.formed r hr
    · exact hw.formedRow
  case rows =>
    intro r hr
    refine (hcommitted _).2 ?_
    obtain hr | rfl := hmem r hr
    · exact .inl (h.rows r hr)
    · exact .inr rfl
  case bounded =>
    intro c hc
    change c.seq ≤ f.sequence
    rw [hw.sequence]
    obtain hc | rfl := (hcommitted c).1 hc
    · exact Int.le_of_lt (Int.lt_of_le_of_lt (h.bounded c hc) hw.seq)
    · exact Int.le_refl _
  case purges =>
    intro g hg
    change g ∈ f.purges at hg
    have hold : g ∈ s.purges → g ∈ f.committed ∧ g.kind = .vaultDeleted := fun hg =>
      ⟨(hcommitted g).2 (.inl (h.purges g hg).1), (h.purges g hg).2⟩
    obtain hp | ⟨hp, hkind⟩ := hw.purges
    · rw [hp] at hg
      exact hold hg
    · rw [hp, List.mem_append, List.mem_singleton] at hg
      obtain hg | rfl := hg
      · exact hold hg
      · exact ⟨(hcommitted _).2 (.inr rfl), hkind⟩
  case tracked =>
    intro c hc hin
    obtain hc | rfl := (hcommitted c).1 hc
    · obtain ht | hp := h.tracked c hc hin
      · exact hw.tracked h ht
      · exact .inr (hw.purged hp)
    · refine .inl (.inr ⟨row.change, mem_pending.2 ⟨⟨row, ?_, rfl⟩, ?_⟩, Later.refl _⟩)
      · change row ∈ f.rows
        rw [hrows]
        exact List.mem_append_right _ (List.mem_singleton.2 rfl)
      · exact Int.lt_of_le_of_lt h.last hw.seq
  case seenSorted => exact h.seenSorted
  case seen =>
    intro d hd
    obtain ⟨hle, hc, hin⟩ := h.seen d hd
    exact ⟨hle, (hcommitted d).2 (.inl hc), hin⟩
  case cursor => exact h.cursor
  case last =>
    change s.last ≤ f.sequence
    rw [hw.sequence]
    exact Int.le_of_lt (Int.lt_of_le_of_lt h.last hw.seq)
  case reading => exact h.reading

theorem inv_register {store : Store} (h : Inv sc s)
    (hform : ∀ r, Formed s.store.vaultDocuments r → Formed store.vaultDocuments r) :
    Inv sc (s.setFeed { s.toFeed with store := store }) :=
  { h with formed := fun r hr => hform r (h.formed r hr) }

theorem inv_call (h : Inv sc s) (limit : Option Int) (hreading : s.reading = none) :
    Inv sc { s with reading := some (GetIndexerChanges.start s.cursor limit) } := by
  have hlast : s.last = s.cursor := by rw [State.last, hreading]
  have hseen : s.seen = s.delivered := by rw [State.seen, hreading]
  have hlast' : State.last { s with reading := some (GetIndexerChanges.start s.cursor limit) } = s.last :=
    (Int.max_eq_right h.cursor).trans hlast.symm
  have hseen' : State.seen { s with reading := some (GetIndexerChanges.start s.cursor limit) } = s.seen := by
    rw [hseen]
    exact List.append_nil _
  refine { h with tracked := ?_, seenSorted := ?_, seen := ?_, last := ?_, reading := ?_ }
  · unfold Tracked
    rw [hlast', hseen']
    exact h.tracked
  · rw [hseen']
    exact h.seenSorted
  · rw [hlast', hseen']
    exact h.seen
  · rw [hlast']
    exact h.last
  · intro r hr
    obtain rfl := Option.some.inj hr
    have hlimit : (GetIndexerChanges.start s.cursor limit).limit ≠ 0 := by
      simp only [GetIndexerChanges.start]
      omega
    exact ⟨Nat.pos_of_ne_zero hlimit, rfl, Int.le_max_right ..⟩

theorem inv_taken (h : Inv sc s) {taken left : List IndexerChange} {last' : Int}
    (hsplit : pending s.rows s.last = taken ++ left) (hlast : last' = (taken.getLast?.map (·.seq)).getD s.last)
    (hfeed : s'.toFeed = s.toFeed) (hlast' : s'.last = last') (hseen : s'.seen = s.seen ++ taken.filter sc.inScope)
    (hcursor : 0 ≤ s'.cursor)
    (hreading : ∀ r, s'.reading = some r → r.result.length < r.limit ∧ r.since = s'.cursor ∧ r.since ≤ r.last) :
    Inv sc s' := by
  have hafter : pending s.rows last' = left := hlast ▸ pending_taken h.sorted hsplit
  have htaken : ∀ d ∈ taken, s.last < d.seq ∧ d.seq ≤ last' ∧ d ∈ s.committed := by
    intro d hd
    have hpending : d ∈ pending s.rows s.last := by
      rw [hsplit]
      exact List.mem_append_left _ hd
    obtain ⟨⟨r, hr, rfl⟩, hlt⟩ := mem_pending.1 hpending
    refine ⟨hlt, Int.not_lt.1 fun hlater => ?_, h.rows r hr⟩
    have hleft : r.change ∈ left := hafter ▸ mem_pending.2 ⟨⟨r, hr, rfl⟩, hlater⟩
    have hsorted := pending_sorted h.sorted s.last
    rw [hsplit, List.pairwise_append] at hsorted
    exact Int.lt_irrefl _ (hsorted.2.2 _ hd _ hleft)
  have hbound : s.last ≤ last' ∧ last' ≤ s.sequence := by
    obtain rfl | ⟨front, d, rfl⟩ := List.eq_nil_or_concat taken
    · rw [hlast]
      exact ⟨Int.le_refl _, h.last⟩
    · obtain ⟨hlt, hle, hc⟩ := htaken d (by simp)
      have heq : last' = d.seq := by simp [hlast]
      rw [heq]
      exact ⟨Int.le_of_lt hlt, h.bounded d hc⟩
  obtain ⟨feed, cursor, reading, delivered, calls⟩ := s'
  obtain rfl : feed = s.toFeed := hfeed
  refine { h with tracked := ?_, seenSorted := ?_, seen := ?_, cursor := hcursor, last := ?_, reading := hreading }
  · intro c hc hin
    refine (h.tracked c hc hin).imp (fun ht => ?_) id
    unfold Tracked
    rw [hseen, hlast']
    obtain ⟨d, hd, hcd⟩ | ⟨d, hd, hcd⟩ := ht
    · exact .inl ⟨d, List.mem_append_left _ hd, hcd⟩
    · rw [hsplit, List.mem_append] at hd
      obtain hd | hd := hd
      · refine .inl ⟨d, List.mem_append_right _ (List.mem_filter.2 ⟨hd, ?_⟩), hcd⟩
        rw [hcd.inScope sc]
        exact hin
      · refine .inr ⟨d, ?_, hcd⟩
        rw [hafter]
        exact hd
  · rw [hseen]
    have hsorted := pending_sorted h.sorted s.last
    rw [hsplit, List.pairwise_append] at hsorted
    refine List.pairwise_append.2 ⟨h.seenSorted, hsorted.1.filter _, fun x hx y hy => ?_⟩
    exact Int.lt_of_le_of_lt (h.seen x hx).1 (htaken y (List.mem_filter.1 hy).1).1
  · rw [hseen, hlast']
    intro d hd
    rw [List.mem_append, List.mem_filter] at hd
    obtain hd | ⟨hd, hin⟩ := hd
    · obtain ⟨hle, hc, hin⟩ := h.seen d hd
      exact ⟨Int.le_trans hle hbound.1, hc, hin⟩
    · obtain ⟨-, hle, hc⟩ := htaken d hd
      exact ⟨hle, hc, hin⟩
  · rw [hlast']
    exact hbound.2

/-- What a batch read by the call `r` does: `taken` are the rows examined. -/
structure Advanced (sc : Scope) (s s' : State) (r : Reading) (taken left : List IndexerChange) : Prop where
  split : pending s.rows s.last = taken ++ left
  feed : s'.toFeed = s.toFeed
  inv : Inv sc s'
  after : pending s'.rows s'.last = left
  empty : taken = [] → left = [] ∧ s'.reading = none
  argument : s'.reading = none → s'.cursor = r.since → taken = []
  delivered : s.delivered ⊆ s'.delivered
  calls : s'.calls ≤ s.calls + 1
  scanned : ∀ r', s'.reading = some r' →
    r'.scanned = r.scanned + GetIndexerChanges.batchSize ∧ r'.scanned < GetIndexerChanges.maxScanned

theorem batch_advanced (h : Inv sc s) {r : Reading} (hr : s.reading = some r)
    (hs : s' = if (GetIndexerChanges.turn sc s.rows r).2 then
        { s with reading := some (GetIndexerChanges.turn sc s.rows r).1 }
      else { s with
        reading := none
        cursor := (GetIndexerChanges.turn sc s.rows r).1.last
        delivered := s.delivered ++ (GetIndexerChanges.turn sc s.rows r).1.result
        calls := s.calls + 1 }) :
    ∃ taken left, Advanced sc s s' r taken left := by
  obtain ⟨hlimit, hsince, hle⟩ := h.reading r hr
  obtain ⟨taken, left, hsplit, hturn, hempty, hmore⟩ := turn_spec sc r h.sorted hlimit
  have hlast : s.last = r.last := by rw [State.last, hr]
  have hseen : s.seen = s.delivered ++ r.result := by rw [State.seen, hr]
  rw [← hlast] at hsplit
  have hafter := pending_taken h.sorted hsplit
  have hgrow : r.last ≤ (taken.getLast?.map (·.seq)).getD r.last ∧
      ((taken.getLast?.map (·.seq)).getD r.last = r.since → taken = []) := by
    obtain rfl | ⟨front, d, rfl⟩ := List.eq_nil_or_concat taken
    · exact ⟨Int.le_refl _, fun _ => rfl⟩
    · have hd : d ∈ pending s.rows s.last := by simp [hsplit]
      have hlt := (mem_pending.1 hd).2
      simp only [List.concat_eq_append, List.getLast?_append, List.getLast?_singleton, Option.some_or,
        Option.map_some, Option.getD_some]
      exact ⟨by omega, fun heq => by omega⟩
  rw [hturn] at hs
  refine ⟨taken, left, ?_⟩
  by_cases hnext : (GetIndexerChanges.turn sc s.rows r).2 = true
  · rw [if_pos hnext] at hs
    obtain ⟨hlt, hscanned, hfull⟩ := hmore hnext
    have hlast' : s'.last = (taken.getLast?.map (·.seq)).getD s.last := by rw [hs, hlast]; rfl
    have hseen' : s'.seen = s.seen ++ taken.filter sc.inScope := by
      rw [hseen, hs, List.append_assoc]; rfl
    constructor
    case split => exact hsplit
    case feed => rw [hs]
    case inv =>
      refine inv_taken h hsplit rfl (by rw [hs]) hlast' hseen' (by rw [hs]; exact h.cursor) fun r' hr' => ?_
      rw [hs] at hr' ⊢
      obtain rfl := Option.some.inj hr'
      exact ⟨hlt, hsince, Int.le_trans hle hgrow.1⟩
    case after => rw [hlast', hs]; exact hafter
    case empty => exact fun hnil => absurd hnext (by rw [(hempty hnil).2]; decide)
    case argument => rw [hs]; exact nofun
    case delivered => rw [hs]; exact fun _ => id
    case calls => rw [hs]; exact Nat.le_succ _
    case scanned =>
      intro r' hr'
      rw [hs] at hr'
      obtain rfl := Option.some.inj hr'
      exact ⟨by rw [hfull], hscanned⟩
  · rw [if_neg hnext] at hs
    have hlast' : s'.last = (taken.getLast?.map (·.seq)).getD s.last := by rw [hs, hlast]; rfl
    have hseen' : s'.seen = s.seen ++ taken.filter sc.inScope := by
      rw [hseen, hs, List.append_assoc]; rfl
    have hcursor := h.cursor
    constructor
    case split => exact hsplit
    case feed => rw [hs]
    case inv =>
      refine inv_taken h hsplit rfl (by rw [hs]) hlast' hseen' ?_ (by rw [hs]; exact nofun)
      rw [hs]
      dsimp only
      omega
    case after => rw [hlast', hs]; exact hafter
    case empty => exact fun hnil => ⟨(hempty hnil).1, by rw [hs]⟩
    case argument => rw [hs]; exact fun _ => hgrow.2
    case delivered => rw [hs]; exact fun _ hd => List.mem_append_left _ hd
    case calls => rw [hs]
    case scanned => rw [hs]; exact nofun

theorem inv_step (h : Inv sc s) {e : Event} (hstep : step sc s e = some s') : Inv sc s' := by
  obtain ⟨f, row, rfl, hw⟩ | ⟨store, rfl, hform⟩ | ⟨limit, hr, rfl⟩ | ⟨r, -, hr, hs⟩ := step_cases hstep
  · exact inv_write h hw
  · exact inv_register h hform
  · exact inv_call h limit hr
  · obtain ⟨taken, left, hadv⟩ := batch_advanced h hr hs
    exact hadv.inv

end Invariant

/-- `c` or a later change of its resource has been delivered, or the vault was deleted after `c` and
this has been delivered. -/
def Told (s : State) (c : IndexerChange) : Prop :=
  (∃ d ∈ s.delivered, Later c d) ∨
    c.kind ≠ .vaultDeleted ∧ ∃ g ∈ s.purges, g.vaultId = c.vaultId ∧ c.seq < g.seq ∧ ∃ d ∈ s.delivered, Later g d

section Runs
variable {sc : Scope} {s t s' : State} {e : Event}

theorem Told.mono (h : Told s c) (hd : s.delivered ⊆ s'.delivered) (hp : s.purges ⊆ s'.purges) : Told s' c := by
  obtain ⟨d, hmem, hcd⟩ | ⟨hkind, g, hg, hv, hlt, d, hmem, hgd⟩ := h
  · exact .inl ⟨d, hd hmem, hcd⟩
  · exact .inr ⟨hkind, g, hp hg, hv, hlt, d, hd hmem, hgd⟩

theorem told_of_idle (h : Inv sc s) (hr : s.reading = none) (hempty : pending s.rows s.last = []) :
    ∀ c ∈ s.committed, sc.inScope c → Told s c := by
  have hseen : s.seen = s.delivered := by rw [State.seen, hr]
  have htracked : ∀ c, Tracked s c → ∃ d ∈ s.delivered, Later c d := by
    intro c hc
    unfold Tracked at hc
    rw [hseen, hempty] at hc
    exact hc.resolve_right (by simp)
  intro c hc hin
  obtain ht | ⟨hkind, g, hg, hv, hlt⟩ := h.tracked c hc hin
  · exact .inl (htracked c ht)
  · obtain ⟨hgc, hgkind⟩ := h.purges g hg
    have hgin : sc.inScope g = true := by
      rw [Scope.inScope, Bool.and_eq_true] at hin ⊢
      rw [hgkind, hv]
      exact ⟨by simp, hin.2⟩
    obtain ht | ⟨hne, -⟩ := h.tracked g hgc hgin
    · exact .inr ⟨hkind, g, hg, hv, hlt, htracked g ht⟩
    · exact absurd hgkind hne

/-- How far the calls are: the calls returned and the rows still to read, against the rows written. -/
def State.work (s : State) : Nat := s.calls + (pending s.rows s.last).length

theorem work_step (h : Inv sc s) (hstep : step sc s e = some s') :
    s.committed ⊆ s'.committed ∧ s.purges ⊆ s'.purges ∧ s.delivered ⊆ s'.delivered ∧
    (s'.work + s.committed.length ≤ s.work + s'.committed.length ∨ ∀ c ∈ s'.committed, sc.inScope c → Told s' c) := by
  have hinv' := inv_step h hstep
  obtain ⟨f, row, rfl, hw⟩ | ⟨store, rfl, hform⟩ | ⟨limit, hr, rfl⟩ | ⟨r, -, hr, hs⟩ := step_cases hstep
  · obtain ⟨keep, hrows, -⟩ := hw.rows
    have hcommitted : (s.setFeed f).committed = s.committed ++ [row.change] := hw.committed
    refine ⟨?_, ?_, fun _ => id, .inl ?_⟩
    · rw [hcommitted]
      exact List.subset_append_left ..
    · change s.purges ⊆ f.purges
      obtain hp | ⟨hp, -⟩ := hw.purges
      · rw [hp]
        exact fun _ => id
      · rw [hp]
        exact List.subset_append_left ..
    · have hlen : (pending f.rows s.last).length ≤ (pending s.rows s.last).length + 1 := by
        rw [hrows, pending, List.map_append, List.filter_append, List.length_append, pending]
        have hkept : (((s.rows.filter keep).map (·.change)).filter (s.last < ·.seq)).length ≤
            ((s.rows.map (·.change)).filter (s.last < ·.seq)).length :=
          ((List.filter_sublist.map _).filter _).length_le
        have hone := List.length_filter_le (fun c : IndexerChange => decide (s.last < c.seq)) [row.change]
        simp only [List.map_cons, List.map_nil, List.length_singleton] at hone ⊢
        omega
      rw [hcommitted, List.length_append, List.length_singleton]
      change s.calls + (pending f.rows s.last).length + _ ≤ s.calls + (pending s.rows s.last).length + _
      omega
  · exact ⟨fun _ => id, fun _ => id, fun _ => id, .inl (Nat.le_refl _)⟩
  · refine ⟨fun _ => id, fun _ => id, fun _ => id, .inl (Nat.le_of_eq ?_)⟩
    have hlast : State.last { s with reading := some (GetIndexerChanges.start s.cursor limit) } = s.last := by
      rw [State.last.eq_def s, hr]
      exact Int.max_eq_right h.cursor
    rw [State.work, State.work, hlast]
  · obtain ⟨taken, left, hadv⟩ := batch_advanced h hr hs
    have hfeed := hadv.feed
    refine ⟨by rw [hfeed]; exact fun _ => id, by rw [hfeed]; exact fun _ => id, hadv.delivered, ?_⟩
    cases taken with
    | nil =>
      obtain ⟨hleft, hidle⟩ := hadv.empty rfl
      exact .inr (told_of_idle hinv' hidle (hadv.after.trans hleft))
    | cons d taken =>
      have hcalls := hadv.calls
      rw [State.work, State.work, hadv.after, hadv.split, hfeed, List.length_append, List.length_cons]
      omega

theorem work_run (h : Inv sc s) (hrun : Run (step sc) (fun _ _ => True) s s') :
    Inv sc s' ∧ s.committed ⊆ s'.committed ∧
    (s'.work + s.committed.length ≤ s.work + s'.committed.length ∨ ∀ c ∈ s.committed, sc.inScope c → Told s' c) := by
  induction hrun with
  | refl => exact ⟨h, fun _ => id, .inl (Nat.le_refl _)⟩
  | tail e _ _ hstep ih =>
    obtain ⟨hinv, hsub, hwork⟩ := ih
    obtain ⟨hsub', hpurges, hdelivered, hwork'⟩ := work_step hinv hstep
    refine ⟨inv_step hinv hstep, fun c hc => hsub' (hsub hc), ?_⟩
    obtain hle | htold := hwork
    · obtain hle' | htold' := hwork'
      · omega
      · exact .inr fun c hc => htold' c (hsub' (hsub hc))
    · exact .inr fun c hc hin => (htold c hc hin).mono hdelivered hpurges

theorem call_returns (k : Nat) (h : Inv sc s) {r : Reading} (hr : s.reading = some r)
    (hk : GetIndexerChanges.maxScanned ≤ r.scanned + GetIndexerChanges.batchSize * (k + 1)) :
    ∃ n ≤ k + 1, ∃ t, exec (step sc) (fun _ _ => True) s (List.replicate n .batch) = some t ∧ t.reading = none := by
  induction k generalizing s r with
  | zero =>
    obtain ⟨t, hstep, taken, left, hadv⟩ : ∃ t, step sc s .batch = some t ∧
      ∃ taken left, Advanced sc s t r taken left := ⟨_, step_batch hr, batch_advanced h hr rfl⟩
    refine ⟨1, Nat.le_refl _, t, by simp [exec, hstep], ?_⟩
    cases hr' : t.reading with
    | none => rfl
    | some r' =>
      have := hadv.scanned r' hr'
      omega
  | succ k ih =>
    obtain ⟨t, hstep, taken, left, hadv⟩ : ∃ t, step sc s .batch = some t ∧
      ∃ taken left, Advanced sc s t r taken left := ⟨_, step_batch hr, batch_advanced h hr rfl⟩
    cases hr' : t.reading with
    | none => exact ⟨1, by omega, t, by simp [exec, hstep], hr'⟩
    | some r' =>
      have hscanned := hadv.scanned r' hr'
      have hk' : GetIndexerChanges.maxScanned ≤ r'.scanned + GetIndexerChanges.batchSize * (k + 1) := by
        rw [hscanned.1, Nat.add_assoc, Nat.add_comm GetIndexerChanges.batchSize, ← Nat.mul_succ]
        exact hk
      obtain ⟨n, hn, u, hu, hidle⟩ := ih hadv.inv hr' hk'
      exact ⟨n + 1, by omega, u, by simp [List.replicate_succ, exec, hstep, hu], hidle⟩

end Runs

/-- After more calls than there were rows to read and rows written meanwhile, every change of the
scope has been told; the answers never repeat a number, and one that does not move the cursor
found no row after it. A call ends after 40 batches at most. -/
theorem changes_delivered (sc : Scope) (s s' : State) (h : Run (step sc) (fun _ _ => True) init s)
    (h' : Run (step sc) (fun _ _ => True) s s') :
    (s.calls + (pending s.rows s.last).length + (s'.committed.length - s.committed.length) < s'.calls →
      ∀ c ∈ s.committed, sc.inScope c → Told s' c) ∧
    s'.delivered.Pairwise (·.seq < ·.seq) ∧ (∀ d ∈ s'.delivered, d ∈ s'.committed ∧ sc.inScope d) ∧
    (∀ r t, s'.reading = some r → step sc s' .batch = some t → t.reading = none → t.cursor = r.since →
      ∀ row ∈ t.rows, row.change.seq ≤ r.since) ∧
    (∀ r, s'.reading = some r → ∃ n ≤ 40, ∃ t,
      exec (step sc) (fun _ _ => True) s' (List.replicate n .batch) = some t ∧ t.reading = none) := by
  have hinv : Inv sc s := h.invariant (Inv sc) inv_init fun _ _ _ hs _ hstep => inv_step hs hstep
  obtain ⟨hinv', -, hwork⟩ := work_run hinv h'
  have hseen : s'.delivered.Sublist s'.seen := by
    unfold State.seen
    split
    · exact List.sublist_append_left ..
    · exact List.Sublist.refl _
  refine ⟨fun hcalls => ?_, hinv'.seenSorted.sublist hseen, fun d hd => (hinv'.seen d (hseen.subset hd)).2,
    fun r t hr hstep hidle hcursor row hrow => ?_, fun r hr => ?_⟩
  · obtain hle | htold := hwork
    · rw [State.work, State.work] at hle
      omega
    · exact htold
  · rw [step_batch hr] at hstep
    obtain ⟨taken, left, hadv⟩ := batch_advanced hinv' hr (Option.some.inj hstep).symm
    have htaken := hadv.argument hidle hcursor
    have hleft := (hadv.empty htaken).1
    have hlast : t.last = r.since := by rw [State.last, hidle, hcursor]
    have hnone := hadv.after
    rw [hleft, hlast] at hnone
    by_contra hlt
    have hmem : row.change ∈ pending t.rows r.since := mem_pending.2 ⟨⟨row, hrow, rfl⟩, Int.not_le.1 hlt⟩
    simp [hnone] at hmem
  · refine call_returns 39 hinv' hr ?_
    rw [GetIndexerChanges.maxScanned, GetIndexerChanges.batchSize]
    omega

/-- However many calls are made, and without a further deletion, neither `c` nor a later change of its
resource need be delivered. -/
def Missed (sc : Scope) (s : State) (c : IndexerChange) : Prop :=
  ∀ n, ∃ s', Run (step sc) (fun _ _ => True) s s' ∧ s.calls + n ≤ s'.calls ∧ s'.purges = s.purges ∧
    ∀ d ∈ s'.delivered, ¬ Later c d

section Missed
variable {sc : Scope} {s : State}

theorem run_idle (hr : s.reading = none) (hcursor : 0 ≤ s.cursor)
    (hsorted : s.rows.Pairwise (·.change.seq < ·.change.seq)) (hempty : pending s.rows s.cursor = []) (n : Nat) :
    Run (step sc) (fun _ _ => True) s { s with calls := s.calls + n } := by
  induction n with
  | zero => exact .refl
  | succ n ih =>
    let r := GetIndexerChanges.start s.cursor none
    have hlast : r.last = s.cursor := Int.max_eq_right hcursor
    have hcall : step sc { s with calls := s.calls + n } (.call none) =
        some { s with calls := s.calls + n, reading := some r } := by
      rw [step, hr]
    have hturn : GetIndexerChanges.turn sc s.rows r = (r, false) := by
      rw [GetIndexerChanges.turn, getSinceAsync_eq hsorted, hlast, hempty]
      rfl
    have hbatch : step sc { s with calls := s.calls + n, reading := some r } .batch =
        some { s with calls := s.calls + (n + 1) } := by
      rw [step_batch rfl, hturn, if_neg (by simp), hlast]
      simp [r, GetIndexerChanges.start, hr, Nat.add_assoc]
    exact .tail .batch (.tail (.call none) ih trivial hcall) trivial hbatch

end Missed

def oneInstance : Scope where
  name := "idx".toList
  instances := ["idx".toList]
  settings := fun _ => .managed

def readAfterDeletion : List Event :=
  [.register "a".toList ["d".toList], .operation 1 .document "d".toList, .vaultDeleted 2 "a".toList, .call none, .batch]

theorem changes_delivered_deletion : ∃ s : State, Run (step oneInstance) (fun _ _ => True) init s ∧
    (∀ c ∈ s.committed, oneInstance.inScope c → Told s c) ∧ s.delivered = [⟨2, "a".toList, .vaultDeleted, none⟩] := by
  have hrun : ∃ t s : State, exec (step oneInstance) (fun _ _ => True) init
      [.register "a".toList ["d".toList], .operation 1 .document "d".toList, .vaultDeleted 2 "a".toList] = some t ∧
      exec (step oneInstance) (fun _ _ => True) t [.call none, .batch, .call none, .batch] = some s ∧
      t.calls + (pending t.rows t.last).length + (s.committed.length - t.committed.length) < s.calls ∧
      s.committed = t.committed ∧ s.delivered = [⟨2, "a".toList, .vaultDeleted, none⟩] :=
    ⟨_, _, rfl, rfl, by decide +kernel, rfl, rfl⟩
  obtain ⟨t, s, ht, hs, hcalls, hcommitted, hdelivered⟩ := hrun
  have ht' := run_of_exec _ _ t ht
  have hs' := run_of_exec _ _ s hs
  refine ⟨s, ht'.trans hs', ?_, hdelivered⟩
  rw [hcommitted]
  exact (changes_delivered oneInstance t s ht' hs').1 hcalls

theorem deleted_missed : ∃ s c, Run (step oneInstance) (fun _ _ => True) init s ∧ c ∈ s.committed ∧
    oneInstance.inScope c ∧ Missed oneInstance s c := by
  have hrun : ∃ s : State, exec (step oneInstance) (fun _ _ => True) init readAfterDeletion = some s ∧
      s.reading = none ∧ 0 ≤ s.cursor ∧ s.rows = [⟨"vault-deleted:a".toList, 2, "a".toList, .vaultDeleted, none⟩] ∧
      pending s.rows s.cursor = [] ∧ (⟨1, "a".toList, .document, some "d".toList⟩ : IndexerChange) ∈ s.committed ∧
      s.delivered = [⟨2, "a".toList, .vaultDeleted, none⟩] :=
    ⟨_, rfl, rfl, by decide +kernel, rfl, by decide +kernel, by decide +kernel, rfl⟩
  obtain ⟨s, hs, hr, hcursor, hrows, hempty, hc, hdelivered⟩ := hrun
  refine ⟨s, _, run_of_exec _ _ s hs, hc, by decide,
    fun n => ⟨_, run_idle hr hcursor ?_ hempty n, Nat.le_refl _, rfl, ?_⟩⟩
  · rw [hrows]
    exact List.pairwise_singleton ..
  · rw [hdelivered]
    decide

/-- The tree of `a`, just written, before that of `b`. -/
def busyRows (first : Int) : List IndexerChangeEntity :=
  [⟨"vault:a".toList, first, "a".toList, .vault, none⟩, ⟨"vault:b".toList, first + 1, "b".toList, .vault, none⟩]

structure Busy (first : Int) (calls : Nat) (s : State) : Prop where
  rows : s.rows = busyRows first
  sequence : s.sequence = first + 1
  cursor : 0 ≤ s.cursor ∧ s.cursor < first
  reading : s.reading = none
  calls : s.calls = calls
  purges : s.purges = []
  delivered : ∀ d ∈ s.delivered, d.vaultId = "a".toList

theorem busy_step {first : Int} {calls : Nat} {s : State} (h : Busy first calls s) :
    ∃ s', Run (step oneInstance) (fun _ _ => True) s s' ∧ Busy (first + 2) (calls + 1) s' := by
  obtain ⟨⟨store, rows, sequence, committed, purges⟩, cursor, reading, delivered, calls'⟩ := s
  obtain ⟨hrows, hsequence, ⟨hzero, hcursor⟩, hreading, hcalls, hpurges, hdelivered⟩ := h
  dsimp only at hrows hsequence hzero hcursor hreading hcalls hpurges hdelivered
  subst hrows hsequence hreading hcalls hpurges
  let a : IndexerChange := ⟨first, "a".toList, .vault, none⟩
  let b : IndexerChange := ⟨first + 1, "b".toList, .vault, none⟩
  let r := GetIndexerChanges.start cursor (some 1)
  have hlast : r.last = cursor := Int.max_eq_right hzero
  have hsorted : (busyRows first).Pairwise (·.change.seq < ·.change.seq) := by
    simp only [busyRows, List.pairwise_pair]
    omega
  have hpending : pending (busyRows first) cursor = [a, b] := by
    have hb : cursor < first + 1 := by omega
    simp [pending, busyRows, hcursor, hb, a, b]
  have hturn : GetIndexerChanges.turn oneInstance (busyRows first) r =
      ({ r with last := first, result := [a], scanned := 1 }, false) := by
    rw [GetIndexerChanges.turn, getSinceAsync_eq hsorted, hlast, hpending]
    rfl
  let s₁ : State := ⟨⟨store, busyRows first, first + 1, committed, []⟩, cursor, some r, delivered, calls'⟩
  let s₂ : State := ⟨⟨store, busyRows first, first + 1, committed, []⟩, first, none, delivered ++ [a], calls' + 1⟩
  have hbatch : step oneInstance s₁ .batch = some s₂ := by
    rw [step_batch rfl, hturn, if_neg (by simp)]
  let fa := IndexerChangeWriter.recordOperationAsync s₂.toFeed (first + 2) .vault "vault:a".toList
  let fb := IndexerChangeWriter.recordOperationAsync fa (first + 3) .vault "vault:b".toList
  have ha : step oneInstance s₂ (.operation (first + 2) .vault "vault:a".toList) = some (s₂.setFeed fa) := by
    rw [step, if_pos (by change first + 1 < first + 2; omega)]
  have hb : step oneInstance (s₂.setFeed fa) (.operation (first + 3) .vault "vault:b".toList) =
      some ((s₂.setFeed fa).setFeed fb) := by
    rw [step, if_pos (by change first + 2 < first + 3; omega)]
    rfl
  refine ⟨(s₂.setFeed fa).setFeed fb, ?_, ?_⟩
  · exact .tail _ (.tail _ (.tail .batch (.tail (.call (some 1)) .refl trivial rfl) trivial hbatch) trivial ha)
      trivial hb
  · constructor
    case rows =>
      have hthree : first + 2 + 1 = first + 3 := by omega
      rw [busyRows, hthree]
      rfl
    case sequence => change first + 3 = first + 2 + 1; omega
    case cursor => change 0 ≤ first ∧ first < first + 2; omega
    case reading => rfl
    case calls => rfl
    case purges => rfl
    case delivered =>
      intro d hd
      obtain hd | hd := List.mem_append.1 hd
      · exact hdelivered d hd
      · rw [List.mem_singleton.1 hd]

theorem busy_run {first : Int} {calls : Nat} {s : State} (h : Busy first calls s) (n : Nat) :
    ∃ s', Run (step oneInstance) (fun _ _ => True) s s' ∧ s'.calls = calls + n ∧ s'.purges = [] ∧
      ∀ d ∈ s'.delivered, d.vaultId = "a".toList := by
  induction n generalizing first calls s with
  | zero => exact ⟨s, .refl, h.calls, h.purges, h.delivered⟩
  | succ n ih =>
    obtain ⟨t, ht, hbusy⟩ := busy_step h
    obtain ⟨s', hs', hcalls, hrest⟩ := ih hbusy
    exact ⟨s', ht.trans hs', by omega, hrest⟩

theorem busy_missed : ∃ s c, Run (step oneInstance) (fun _ _ => True) init s ∧ s.purges = [] ∧ c ∈ s.committed ∧
    oneInstance.inScope c ∧ Missed oneInstance s c := by
  have hrun : ∃ s : State, exec (step oneInstance) (fun _ _ => True) init
      [.operation 1 .vault "vault:a".toList, .operation 2 .vault "vault:b".toList] = some s ∧ Busy 1 0 s ∧
      (⟨2, "b".toList, .vault, none⟩ : IndexerChange) ∈ s.committed :=
    ⟨_, rfl, ⟨rfl, rfl, by decide, rfl, rfl, rfl, nofun⟩, by decide⟩
  obtain ⟨s, hs, hbusy, hc⟩ := hrun
  refine ⟨s, _, run_of_exec _ _ s hs, hbusy.purges, hc, by decide, fun n => ?_⟩
  obtain ⟨s', hs', hcalls, hpurges, hdelivered⟩ := busy_run hbusy n
  refine ⟨s', hs', by rw [hcalls, hbusy.calls], hpurges.trans hbusy.purges.symm, fun d hd hlater => ?_⟩
  exact absurd ((hdelivered d hd).symm.trans hlater.vaultId) (by decide)

/-- Two ways in which neither a change nor a later one of its resource is delivered: its vault is
deleted, or it is written again and again without a deletion. -/
theorem changes_missed :
    (∃ s c, Run (step oneInstance) (fun _ _ => True) init s ∧ c ∈ s.committed ∧ oneInstance.inScope c ∧
      Missed oneInstance s c) ∧
    ∃ s c, Run (step oneInstance) (fun _ _ => True) init s ∧ s.purges = [] ∧ c ∈ s.committed ∧
      oneInstance.inScope c ∧ Missed oneInstance s c :=
  ⟨deleted_missed, busy_missed⟩

end Savoire.Indexer
