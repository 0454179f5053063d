import Savoire.Access.Accounts
import Mathlib.Data.List.Nodup

/-! The requests for tokens, and what is known of them while they are under way. -/
namespace Savoire.Accounts
open Transition

def OneActive (l : List AccountEntry) : Prop :=
  ∀ a ∈ l, ∀ b ∈ l, a.isActive = true → b.isActive = true → a.userId = b.userId

/-- The provider has answered `answer` for `token`, and its waiters have not all gone on. -/
def Answered (inFlight : KeyedMap Token (Option Answer)) (delivering : Option (Token × Answer)) (token : Token)
    (answer : Answer) : Prop :=
  inFlight.get token = some (some answer) ∨ delivering = some (token, answer)

structure RequestsOk (serial : Nat) (inFlight : KeyedMap Token (Option Answer)) (delivering : Option (Token × Answer))
    (waiting : List (Token × Waiter)) (spent sent failed : List Token) : Prop where
  owner : ∀ p ∈ waiting, p.1.userId = p.2.userId
  captured : ∀ token userId l, (token, .switch userId l) ∈ waiting →
    (l.map AccountEntry.userId).Nodup ∧ userId ∈ l.map AccountEntry.userId ∧ OneActive l
  waits : ∀ token answer, inFlight.get token = some answer → ∃ w, (token, w) ∈ waiting
  gone : ∀ d ∈ delivering, inFlight.get d.1 = none
  final : ∀ token answer, Answered inFlight delivering token answer → answer.isFinal = true → token ∈ spent
  next : ∀ token next, Answered inFlight delivering token (.ok next) →
    next ∉ sent ∧ next.serial < serial ∧ next.userId = token.userId
  inj : ∀ token token' next, Answered inFlight delivering token (.ok next) →
    Answered inFlight delivering token' (.ok next) → token = token'
  known : ∀ token ∈ spent, token ∈ sent
  flying : ∀ token answer, inFlight.get token = some answer → token ∈ sent
  fresh : ∀ token ∈ sent, token.serial < serial
  counts : ∀ token, sent.count token ≤
    failed.count token + if token ∈ spent ∨ inFlight.get token = some none then 1 else 0

structure TokensOk (serial : Nat) (inFlight : KeyedMap Token (Option Answer)) (delivering : Option (Token × Answer))
    (waiting : List (Token × Waiter)) (logouts : List Text) (accounts : List (Text × Token)) (spent : List Token)
    (tokens : List (Text × Token)) : Prop where
  once : (tokens.map Prod.fst).Nodup
  owner : ∀ p ∈ tokens, p.2.userId = p.1
  fresh : ∀ p ∈ tokens, p.2.serial < serial
  pending : ∀ p ∈ tokens, p.2 ∈ spent →
    (∃ answer, Answered inFlight delivering p.2 answer ∧ answer.isFinal = true) ∧ ∃ w, (p.2, w) ∈ waiting
  kept : ∀ p ∈ tokens, p.1 ∈ logouts ∨
    (p.2 ∉ spent → p ∈ accounts) ∧ ∀ next, Answered inFlight delivering p.2 (.ok next) → (p.1, next) ∈ accounts
  present : ∀ p ∈ accounts, ∃ q ∈ tokens, q.1 = p.1 ∧ (q.2 = p.2 ∨ Answered inFlight delivering q.2 (.ok p.2))
  unspent : ∀ p ∈ accounts, p.2 ∉ spent ∧ p.2.userId = p.1
  transit : ∀ token next, inFlight.get token = some (some (.ok next)) → ∀ p ∈ tokens, p.2 ≠ next

structure Inv (s : Session) : Prop where
  requests : RequestsOk s.serial s.inFlight s.delivering s.waiting s.spent s.sent s.failed
  tokens : TokensOk s.serial s.inFlight s.delivering s.waiting s.logouts s.accounts s.spent (pairs s.stored)
  active : OneActive s.stored

section Steps
variable {s s' : Session} {token : Token} {userId : Text}

theorem map_fst_pairs (l : List AccountEntry) : (pairs l).map Prod.fst = l.map AccountEntry.userId := by
  rw [pairs, List.map_map]
  rfl

theorem mem_pairs {a : AccountEntry} {l : List AccountEntry} (h : a ∈ l) : (a.userId, a.refreshToken) ∈ pairs l :=
  List.mem_map_of_mem h

theorem Inv.unspent (h : Inv s) (hidle : s.delivering = none) {p : Text × Token} (hp : p ∈ pairs s.stored)
    (hget : s.inFlight.get p.2 = none) : p.2 ∉ s.spent := by
  intro hspent
  obtain ⟨⟨answer, hanswer, -⟩, -⟩ := h.tokens.pending p hp hspent
  rcases hanswer with hflight | hdelivering
  · cases hget.symm.trans hflight
  · cases hidle.symm.trans hdelivering

theorem Inv.refreshOnce (h : Inv s) (hidle : s.delivering = none) {a : AccountEntry} (ha : a ∈ s.stored)
    {w : Waiter} (hw : w.userId = a.userId)
    (hcaptured : ∀ userId l, w = .switch userId l →
      (l.map AccountEntry.userId).Nodup ∧ userId ∈ l.map AccountEntry.userId ∧ OneActive l) :
    Inv (s.refreshOnce a.refreshToken w) := by
  have howner : a.refreshToken.userId = a.userId := h.tokens.owner _ (mem_pairs ha)
  have hwaiters : ∀ p ∈ s.waiting ++ [(a.refreshToken, w)], p.1.userId = p.2.userId := by
    intro p hp
    rcases List.mem_append.mp hp with hp | hp
    · exact h.requests.owner p hp
    · rw [List.mem_singleton.mp hp]
      exact howner.trans hw.symm
  have hcaptured' : ∀ token userId l, (token, .switch userId l) ∈ s.waiting ++ [(a.refreshToken, w)] →
      (l.map AccountEntry.userId).Nodup ∧ userId ∈ l.map AccountEntry.userId ∧ OneActive l := by
    intro token userId l hmem
    rcases List.mem_append.mp hmem with hmem | hmem
    · exact h.requests.captured token userId l hmem
    · exact hcaptured userId l (Prod.mk.inj (List.mem_singleton.mp hmem)).2.symm
  have hpending : ∀ p ∈ pairs s.stored, p.2 ∈ s.spent →
      (∃ answer, Answered s.inFlight s.delivering p.2 answer ∧ answer.isFinal = true) ∧
        ∃ w', (p.2, w') ∈ s.waiting ++ [(a.refreshToken, w)] := by
    intro p hp hspent
    obtain ⟨hanswer, w', hw'⟩ := h.tokens.pending p hp hspent
    exact ⟨hanswer, w', List.mem_append_left _ hw'⟩
  unfold Session.refreshOnce
  split
  · exact
      { h with
        requests :=
          { h.requests with
            owner := hwaiters
            captured := hcaptured'
            waits := fun token' answer' hget' => by
              obtain ⟨w', hw'⟩ := h.requests.waits token' answer' hget'
              exact ⟨w', List.mem_append_left _ hw'⟩ }
        tokens := { h.tokens with pending := hpending } }
  · rename_i hget
    have hspent : a.refreshToken ∉ s.spent := h.unspent hidle (mem_pairs ha) hget
    have hsame : ∀ token answer, Answered (s.inFlight.set a.refreshToken none) s.delivering token answer →
        Answered s.inFlight s.delivering token answer := by
      rintro token answer (hflight | hdelivering)
      · rw [KeyedMap.get_set] at hflight
        split at hflight
        · cases hflight
        · exact .inl hflight
      · exact .inr hdelivering
    have hother : ∀ token, token ≠ a.refreshToken →
        (s.inFlight.set a.refreshToken none).get token = s.inFlight.get token := fun token => KeyedMap.get_set_ne
    have hkeep : ∀ token answer, Answered s.inFlight s.delivering token answer →
        Answered (s.inFlight.set a.refreshToken none) s.delivering token answer := by
      rintro token answer (hflight | hdelivering)
      · refine .inl ((hother token ?_).trans hflight)
        rintro rfl
        cases hget.symm.trans hflight
      · exact .inr hdelivering
    have hrequests : RequestsOk s.serial (s.inFlight.set a.refreshToken none) s.delivering
        (s.waiting ++ [(a.refreshToken, w)]) s.spent (s.sent ++ [a.refreshToken]) s.failed :=
      { owner := hwaiters
        captured := hcaptured'
        waits := fun token answer hflight => by
          by_cases heq : token = a.refreshToken
          · exact ⟨w, List.mem_append_right _ (List.mem_singleton.mpr (heq ▸ rfl))⟩
          · obtain ⟨w', hw'⟩ := h.requests.waits token answer ((hother token heq).symm.trans hflight)
            exact ⟨w', List.mem_append_left _ hw'⟩
        gone := fun d hd => by cases hidle.symm.trans hd
        final := fun token answer hanswer => h.requests.final token answer (hsame token answer hanswer)
        next := fun token next hanswer => by
          obtain ⟨hsent, hserial, huser⟩ := h.requests.next token next (hsame _ _ hanswer)
          refine ⟨fun hmem => ?_, hserial, huser⟩
          rcases List.mem_append.mp hmem with hmem | hmem
          · exact hsent hmem
          · -- a token in transit is not one that is kept
            rcases hsame _ _ hanswer with hflight | hdelivering
            · exact h.tokens.transit token next hflight _ (mem_pairs ha) (List.mem_singleton.mp hmem).symm
            · cases hidle.symm.trans hdelivering
        inj := fun token token' next ht ht' => h.requests.inj token token' next (hsame _ _ ht) (hsame _ _ ht')
        known := fun token ht => List.mem_append_left _ (h.requests.known token ht)
        flying := fun token answer hflight => by
          by_cases heq : token = a.refreshToken
          · exact List.mem_append_right _ (List.mem_singleton.mpr heq)
          · exact List.mem_append_left _ (h.requests.flying token answer ((hother token heq).symm.trans hflight))
        fresh := fun token ht => by
          rcases List.mem_append.mp ht with ht | ht
          · exact h.requests.fresh token ht
          · rw [List.mem_singleton.mp ht]
            exact h.tokens.fresh _ (mem_pairs ha)
        counts := fun token => by
          have hcounts := h.requests.counts token
          rw [List.count_append, List.count_singleton]
          by_cases heq : token = a.refreshToken
          · subst heq
            rw [if_neg (by simp [hspent, hget])] at hcounts
            rw [if_pos (beq_self_eq_true _), if_pos (Or.inr KeyedMap.get_set_self)]
            exact Nat.succ_le_succ hcounts
          · rw [hother token heq, if_neg (by simpa using Ne.symm heq)]
            exact hcounts }
    exact
      { h with
        requests := hrequests
        tokens :=
          { h.tokens with
            pending := fun p hp hs => by
              obtain ⟨⟨answer, hanswer, hfinal⟩, hw'⟩ := hpending p hp hs
              exact ⟨⟨answer, hkeep _ _ hanswer, hfinal⟩, hw'⟩
            kept := fun p hp => (h.tokens.kept p hp).imp_right fun hk =>
              ⟨hk.1, fun next hanswer => hk.2 next (hsame _ _ hanswer)⟩
            present := fun p hp => by
              obtain ⟨q, hq, hqp, htoken⟩ := h.tokens.present p hp
              exact ⟨q, hq, hqp, htoken.imp_right (hkeep _ _)⟩
            transit := fun token next hflight => by
              by_cases heq : token = a.refreshToken
              · rw [heq, KeyedMap.get_set_self] at hflight
                cases hflight
              · exact h.tokens.transit token next ((hother token heq).symm.trans hflight) } }

theorem Inv.renew (h : Inv s) (hidle : s.delivering = none) : Inv s.renew := by
  unfold Session.renew
  split
  · exact h
  · split
    · exact h
    · rename_i active hactive
      have hkept : Inv { s with renewing := true } := { h with }
      exact hkept.refreshOnce hidle (List.mem_of_find?_eq_some hactive) rfl fun _ _ heq => by cases heq

theorem Inv.switchAccount (h : Inv s) (hidle : s.delivering = none) (userId : Text) :
    Inv (s.switchAccount userId) := by
  unfold Session.switchAccount
  split
  · exact h
  · rename_i target htarget
    have hmem := List.mem_of_find?_eq_some htarget
    have huser : target.userId = userId := by simpa using List.find?_some htarget
    refine h.refreshOnce hidle hmem huser.symm fun userId' l heq => ?_
    obtain ⟨rfl, rfl⟩ := Waiter.switch.inj heq
    refine ⟨?_, huser ▸ List.mem_map_of_mem hmem, h.active⟩
    rw [← map_fst_pairs]
    exact h.tokens.once

theorem counts_mono {sent failed : List Token} {spent : List Token} {inFlight : KeyedMap Token (Option Answer)}
    {token : Token} (h : sent.count token ≤ failed.count token + if token ∈ spent ∨ inFlight.get token = some none then 1 else 0)
    {failed' spent' : List Token} {inFlight' : KeyedMap Token (Option Answer)}
    (hfailed : failed.count token ≤ failed'.count token) (hspent : token ∈ spent → token ∈ spent')
    (hget : inFlight.get token = some none →
      inFlight'.get token = some none ∨ token ∈ spent' ∨ failed.count token + 1 ≤ failed'.count token) :
    sent.count token ≤
      failed'.count token + if token ∈ spent' ∨ inFlight'.get token = some none then 1 else 0 := by
  split at h
  · rename_i hor
    by_cases hnew : token ∈ spent' ∨ inFlight'.get token = some none
    · rw [if_pos hnew]
      omega
    · obtain ⟨hs, hg⟩ := not_or.mp hnew
      rcases hor with hor | hor
      · exact absurd (hspent hor) hs
      · rcases hget hor with hg' | hs' | hc
        · exact absurd hg' hg
        · exact absurd hs' hs
        · omega
  · omega

theorem Inv.not_answered (h : Inv s) (hget : s.inFlight.get token = some none) (answer : Answer) :
    ¬ Answered s.inFlight s.delivering token answer := by
  rintro (hflight | hdelivering)
  · cases hget.symm.trans hflight
  · cases hget.symm.trans (h.requests.gone _ hdelivering)

theorem answered_set {inFlight : KeyedMap Token (Option Answer)} {delivering : Option (Token × Answer)}
    {token token' : Token} {answer answer' : Answer}
    (h : Answered (inFlight.set token (some answer)) delivering token' answer') :
    token' = token ∧ answer' = answer ∨ Answered inFlight delivering token' answer' := by
  rcases h with hflight | hdelivering
  · rw [KeyedMap.get_set] at hflight
    split at hflight
    · rename_i heq
      cases hflight
      exact .inl ⟨heq, rfl⟩
    · exact .inr (.inl hflight)
  · exact .inr (.inr hdelivering)

theorem Inv.answered_keep (h : Inv s) (hget : s.inFlight.get token = some none) {answer : Answer} {token' : Token}
    {answer' : Answer} (ha : Answered s.inFlight s.delivering token' answer') :
    Answered (s.inFlight.set token (some answer)) s.delivering token' answer' := by
  have hne : token' ≠ token := by
    rintro rfl
    exact h.not_answered hget answer' ha
  exact ha.imp_left (KeyedMap.get_set_ne hne).trans

/-- What an answer says of the requests. -/
theorem Inv.requests_answered (h : Inv s) (hget : s.inFlight.get token = some none) {answer : Answer}
    {spent failed : List Token} {serial : Nat} (hserial : s.serial ≤ serial)
    (hspent : ∀ t, t ∈ spent ↔ t ∈ s.spent ∨ t = token ∧ answer.isFinal = true)
    (hfailed : ∀ t, s.failed.count t + (if t = token ∧ answer.isFinal = false then 1 else 0) ≤ failed.count t)
    (hnext : ∀ next, answer = .ok next → s.serial ≤ next.serial ∧ next.serial < serial ∧ next.userId = token.userId) :
    RequestsOk serial (s.inFlight.set token (some answer)) s.delivering s.waiting spent s.sent failed where
  owner := h.requests.owner
  captured := h.requests.captured
  waits t a ha := by
    by_cases heq : t = token
    · subst heq
      exact h.requests.waits _ _ hget
    · exact h.requests.waits t a ((KeyedMap.get_set_ne heq).symm.trans ha)
  gone d hd := by
    have hgone := h.requests.gone d hd
    rw [KeyedMap.get_set_ne]
    · exact hgone
    · rintro rfl
      cases hget.symm.trans hgone
  final t a ha hfinal := by
    rcases answered_set ha with ⟨rfl, rfl⟩ | ha
    · exact (hspent _).mpr (.inr ⟨rfl, hfinal⟩)
    · exact (hspent t).mpr (.inl (h.requests.final t a ha hfinal))
  next t next ha := by
    rcases answered_set ha with ⟨rfl, heq⟩ | ha
    · obtain ⟨hge, hlt, huser⟩ := hnext next heq.symm
      refine ⟨fun hsent => ?_, hlt, huser⟩
      have hlt' := h.requests.fresh next hsent
      omega
    · obtain ⟨hsent, hlt, huser⟩ := h.requests.next t next ha
      exact ⟨hsent, hlt.trans_le hserial, huser⟩
  inj t t' next ha ha' := by
    -- a token that is issued is none that was issued before
    have hold : ∀ t, Answered s.inFlight s.delivering t (.ok next) → answer ≠ .ok next := by
      intro t hat heq
      have hlt := (h.requests.next t next hat).2.1
      have hge := (hnext next heq).1
      omega
    rcases answered_set ha with ⟨rfl, heq⟩ | hold₁ <;> rcases answered_set ha' with ⟨rfl, heq'⟩ | hold₂
    · rfl
    · exact absurd heq.symm (hold t' hold₂)
    · exact absurd heq'.symm (hold t hold₁)
    · exact h.requests.inj t t' next hold₁ hold₂
  known t ht := by
    rcases (hspent t).mp ht with ht | ⟨rfl, -⟩
    · exact h.requests.known t ht
    · exact h.requests.flying t none hget
  flying t a ha := by
    by_cases heq : t = token
    · subst heq
      exact h.requests.flying _ _ hget
    · exact h.requests.flying t a ((KeyedMap.get_set_ne heq).symm.trans ha)
  fresh t ht := (h.requests.fresh t ht).trans_le hserial
  counts t := by
    have hle := hfailed t
    refine counts_mono (h.requests.counts t) (by omega) (fun ht => (hspent t).mpr (.inl ht)) fun hnone => ?_
    by_cases heq : t = token
    · cases hfinal : answer.isFinal with
      | true => exact .inr (.inl ((hspent t).mpr (.inr ⟨heq, hfinal⟩)))
      | false =>
        rw [if_pos ⟨heq, hfinal⟩] at hle
        exact .inr (.inr hle)
    · exact .inl ((KeyedMap.get_set_ne heq).trans hnone)

theorem Inv.answer (h : Inv s) (hget : s.inFlight.get token = some none) (reply : Reply) :
    Inv (s.answered token reply) := by
  have hsent : token ∈ s.sent := h.requests.flying token none hget
  have hnot := h.not_answered hget
  have hkeep : ∀ {answer : Answer} t a, Answered s.inFlight s.delivering t a →
      Answered (s.inFlight.set token (some answer)) s.delivering t a := fun _ _ => h.answered_keep hget
  have hwaits := h.requests.waits token none hget
  -- an answer that was known is of another token, and gives a token that has not been sent
  have hother : ∀ t next, Answered s.inFlight s.delivering t (.ok next) → t ≠ token ∧ next ≠ token := by
    intro t next ha
    refine ⟨?_, ?_⟩
    · rintro rfl
      exact hnot _ ha
    · rintro rfl
      exact (h.requests.next t _ ha).1 hsent
  cases reply with
  | fail =>
    simp only [Session.answered]
    exact
      { h with
        requests := h.requests_answered hget le_rfl (by simp [Answer.isFinal])
          (fun t => by
            by_cases heq : t = token
            · simp [heq, Answer.isFinal]
            · simp [heq])
          fun _ heq => by cases heq
        tokens :=
          { h.tokens with
            pending := fun p hp hs => by
              obtain ⟨⟨answer, ha, hfinal⟩, hw⟩ := h.tokens.pending p hp hs
              exact ⟨⟨answer, hkeep _ _ ha, hfinal⟩, hw⟩
            kept := fun p hp => (h.tokens.kept p hp).imp_right fun hk => ⟨hk.1, fun next ha => by
              rcases answered_set ha with ⟨-, heq⟩ | ha
              · cases heq
              · exact hk.2 next ha⟩
            present := fun p hp => by
              obtain ⟨q, hq, hqp, ht⟩ := h.tokens.present p hp
              exact ⟨q, hq, hqp, ht.imp_right (hkeep _ _)⟩
            transit := fun t next hflight => by
              rw [KeyedMap.get_set] at hflight
              split at hflight
              · cases hflight
              · exact h.tokens.transit t next hflight } }
  | refuse =>
    simp only [Session.answered]
    exact
      { h with
        requests := h.requests_answered hget le_rfl (by simp [Answer.isFinal])
          (fun t => by simp [Answer.isFinal]) fun _ heq => by cases heq
        tokens :=
          { h.tokens with
            pending := fun p hp hs => by
              rcases List.mem_append.mp hs with hs | hs
              · obtain ⟨⟨answer, ha, hfinal⟩, hw⟩ := h.tokens.pending p hp hs
                exact ⟨⟨answer, hkeep _ _ ha, hfinal⟩, hw⟩
              · rw [List.mem_singleton.mp hs]
                exact ⟨⟨.refused, .inl KeyedMap.get_set_self, rfl⟩, hwaits⟩
            kept := fun p hp => (h.tokens.kept p hp).imp_right fun hk => by
              refine ⟨fun hs => ?_, fun next ha => ?_⟩
              · obtain ⟨hs, hne⟩ := not_or.mp (mt List.mem_append.mpr hs)
                refine List.mem_filter.mpr ⟨hk.1 hs, decide_eq_true ?_⟩
                exact fun heq => hne (List.mem_singleton.mpr heq)
              · rcases answered_set ha with ⟨-, heq⟩ | ha
                · cases heq
                · exact List.mem_filter.mpr ⟨hk.2 next ha, decide_eq_true (hother _ _ ha).2⟩
            present := fun p hp => by
              obtain ⟨hp, -⟩ := List.mem_filter.mp hp
              obtain ⟨q, hq, hqp, ht⟩ := h.tokens.present p hp
              exact ⟨q, hq, hqp, ht.imp_right (hkeep _ _)⟩
            unspent := fun p hp => by
              obtain ⟨hp, hne⟩ := List.mem_filter.mp hp
              obtain ⟨hs, huser⟩ := h.tokens.unspent p hp
              refine ⟨fun hmem => ?_, huser⟩
              rcases List.mem_append.mp hmem with hmem | hmem
              · exact hs hmem
              · exact of_decide_eq_true hne (List.mem_singleton.mp hmem)
            transit := fun t next hflight => by
              rw [KeyedMap.get_set] at hflight
              split at hflight
              · cases hflight
              · exact h.tokens.transit t next hflight } }
  | accept =>
    simp only [Session.answered]
    have hmap : ∀ p ∈ s.accounts, p.2 ≠ token →
        p ∈ s.accounts.map fun p => if p.2 = token then (p.1, ⟨token.userId, s.serial⟩) else p := by
      intro p hp hne
      exact List.mem_map.mpr ⟨p, hp, if_neg hne⟩
    exact
      { h with
        requests := h.requests_answered hget (Nat.le_succ _) (by simp [Answer.isFinal])
          (fun t => by simp [Answer.isFinal]) fun next heq => by
            obtain rfl := Answer.ok.inj heq
            exact ⟨le_rfl, Nat.lt_succ_self _, rfl⟩
        tokens :=
          { h.tokens with
            fresh := fun p hp => (h.tokens.fresh p hp).trans (Nat.lt_succ_self _)
            pending := fun p hp hs => by
              rcases List.mem_append.mp hs with hs | hs
              · obtain ⟨⟨answer, ha, hfinal⟩, hw⟩ := h.tokens.pending p hp hs
                exact ⟨⟨answer, hkeep _ _ ha, hfinal⟩, hw⟩
              · rw [List.mem_singleton.mp hs]
                exact ⟨⟨_, .inl KeyedMap.get_set_self, rfl⟩, hwaits⟩
            kept := fun p hp => (h.tokens.kept p hp).imp_right fun hk => by
              refine ⟨fun hs => ?_, fun next ha => ?_⟩
              · obtain ⟨hs, hne⟩ := not_or.mp (mt List.mem_append.mpr hs)
                exact hmap p (hk.1 hs) fun heq => hne (List.mem_singleton.mpr heq)
              · rcases answered_set ha with ⟨htoken, heq⟩ | ha
                · obtain rfl := Answer.ok.inj heq
                  have hs : p.2 ∉ s.spent := fun hs => by
                    obtain ⟨⟨answer, ha, -⟩, -⟩ := h.tokens.pending p hp hs
                    exact hnot answer (htoken ▸ ha)
                  exact List.mem_map.mpr ⟨p, hk.1 hs, if_pos htoken⟩
                · exact hmap _ (hk.2 next ha) (hother _ _ ha).2
            present := fun p hp => by
              obtain ⟨p₀, hp₀, rfl⟩ := List.mem_map.mp hp
              obtain ⟨q, hq, hqp, ht⟩ := h.tokens.present p₀ hp₀
              split
              · rename_i htoken
                refine ⟨q, hq, hqp, .inr ?_⟩
                rcases ht with ht | ht
                · rw [ht, htoken]
                  exact .inl KeyedMap.get_set_self
                · exact absurd htoken (hother _ _ ht).2
              · exact ⟨q, hq, hqp, ht.imp_right (hkeep _ _)⟩
            unspent := fun p hp => by
              obtain ⟨p₀, hp₀, rfl⟩ := List.mem_map.mp hp
              obtain ⟨hs, huser⟩ := h.tokens.unspent p₀ hp₀
              split
              · rename_i htoken
                refine ⟨fun hmem => ?_, htoken ▸ huser⟩
                have hlt : s.serial < s.serial := by
                  rcases List.mem_append.mp hmem with hmem | hmem
                  · exact h.requests.fresh _ (h.requests.known _ hmem)
                  · have hlt := h.requests.fresh token hsent
                    rwa [← List.mem_singleton.mp hmem] at hlt
                omega
              · rename_i htoken
                refine ⟨fun hmem => ?_, huser⟩
                rcases List.mem_append.mp hmem with hmem | hmem
                · exact hs hmem
                · exact htoken (List.mem_singleton.mp hmem)
            transit := fun t next hflight p hp => by
              rw [KeyedMap.get_set] at hflight
              split at hflight
              · obtain rfl := Answer.ok.inj (Option.some.inj (Option.some.inj hflight))
                rintro heq
                have hlt := h.tokens.fresh p hp
                rw [heq] at hlt
                exact lt_irrefl _ hlt
              · exact h.tokens.transit t next hflight p hp } }

theorem Inv.arrive (h : Inv s) (hidle : s.delivering = none) {answer : Answer}
    (hget : s.inFlight.get token = some (some answer)) :
    Inv { s with inFlight := s.inFlight.delete token, delivering := some (token, answer) } := by
  have hflight : ∀ {t o}, (s.inFlight.delete token).get t = some o → t ≠ token ∧ s.inFlight.get t = some o := by
    intro t o ht
    rw [KeyedMap.get_delete] at ht
    split at ht
    · cases ht
    · rename_i hne
      exact ⟨hne, ht⟩
  have hsame : ∀ t a, Answered (s.inFlight.delete token) (some (token, answer)) t a ↔
      Answered s.inFlight s.delivering t a := by
    intro t a
    constructor
    · rintro (ht | ht)
      · exact .inl (hflight ht).2
      · obtain ⟨rfl, rfl⟩ := Prod.mk.inj (Option.some.inj ht)
        exact .inl hget
    · rintro (ht | ht)
      · by_cases heq : t = token
        · subst heq
          obtain rfl := Option.some.inj (Option.some.inj (hget.symm.trans ht))
          exact .inr rfl
        · exact .inl (by rw [KeyedMap.get_delete, if_neg heq, ht])
      · cases hidle.symm.trans ht
  exact
    { h with
      requests :=
        { h.requests with
          waits := fun t a ha => h.requests.waits t a (hflight ha).2
          gone := fun d hd => by
            obtain rfl := Option.some.inj hd
            simp [KeyedMap.get_delete]
          final := fun t a ha => h.requests.final t a ((hsame t a).mp ha)
          next := fun t next ha => h.requests.next t next ((hsame _ _).mp ha)
          inj := fun t t' next ha ha' => h.requests.inj t t' next ((hsame _ _).mp ha) ((hsame _ _).mp ha')
          flying := fun t a ha => h.requests.flying t a (hflight ha).2
          counts := fun t => counts_mono (h.requests.counts t) le_rfl id fun hnone => .inl (by
            rw [KeyedMap.get_delete, if_neg, hnone]
            rintro rfl
            cases hget.symm.trans hnone) }
      tokens :=
        { h.tokens with
          pending := fun p hp hs => by
            obtain ⟨⟨a, ha, hfinal⟩, hw⟩ := h.tokens.pending p hp hs
            exact ⟨⟨a, (hsame _ _).mpr ha, hfinal⟩, hw⟩
          kept := fun p hp => (h.tokens.kept p hp).imp_right fun hk =>
            ⟨hk.1, fun next ha => hk.2 next ((hsame _ _).mp ha)⟩
          present := fun p hp => by
            obtain ⟨q, hq, hqp, ht⟩ := h.tokens.present p hp
            exact ⟨q, hq, hqp, ht.imp_right (hsame _ _).mpr⟩
          transit := fun t next ht => h.tokens.transit t next (hflight ht).2 } }

theorem Inv.delivered (h : Inv s) {answer : Answer} (hd : s.delivering = some (token, answer))
    (hnone : ∀ w, (token, w) ∉ s.waiting) : Inv { s with delivering := none } := by
  have hsub : ∀ t a, Answered s.inFlight none t a → Answered s.inFlight s.delivering t a := by
    rintro t a (ht | ht)
    · exact .inl ht
    · cases ht
  -- no token kept waits for the answer any more
  have hback : ∀ p ∈ pairs s.stored, ∀ a, a.isFinal = true → Answered s.inFlight s.delivering p.2 a →
      Answered s.inFlight none p.2 a := by
    rintro p hp a hfinal (ht | ht)
    · exact .inl ht
    · obtain ⟨-, w, hw⟩ := h.tokens.pending p hp (h.requests.final _ _ (.inr ht) hfinal)
      obtain ⟨heq, -⟩ := Prod.mk.inj (Option.some.inj (hd.symm.trans ht))
      exact absurd (heq ▸ hw) (hnone w)
  exact
    { h with
      requests :=
        { h.requests with
          gone := fun d hd => by cases hd
          final := fun t a ha => h.requests.final t a (hsub t a ha)
          next := fun t next ha => h.requests.next t next (hsub _ _ ha)
          inj := fun t t' next ha ha' => h.requests.inj t t' next (hsub _ _ ha) (hsub _ _ ha') }
      tokens :=
        { h.tokens with
          pending := fun p hp hs => by
            obtain ⟨⟨a, ha, hfinal⟩, hw⟩ := h.tokens.pending p hp hs
            exact ⟨⟨a, hback p hp a hfinal ha, hfinal⟩, hw⟩
          kept := fun p hp => (h.tokens.kept p hp).imp_right fun hk =>
            ⟨hk.1, fun next ha => hk.2 next (hsub _ _ ha)⟩
          present := fun p hp => by
            obtain ⟨q, hq, hqp, ht⟩ := h.tokens.present p hp
            exact ⟨q, hq, hqp, ht.imp_right (hback q hq _ rfl)⟩ } }

end Steps
end Savoire.Accounts
