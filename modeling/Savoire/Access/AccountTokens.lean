import Savoire.Access.AccountRequests

/-! The accounts keep the last token that was issued to them. -/
namespace Savoire.Accounts
open Transition

section Steps
variable {s s' : Session} {token : Token} {userId : Text}

/-- What a waiter makes of the tokens that are kept. -/
def Follows (token : Token) (tokens tokens' : List (Text × Token)) : Answer → Prop
  | .failed => tokens' = tokens
  | .refused => ∀ p, p ∈ tokens' ↔ p ∈ tokens ∧ p.2 ≠ token
  | .ok next => ∀ p, p ∈ tokens' ↔ ∃ q ∈ tokens, p = (q.1, if q.2 = token then next else q.2)

variable {answer : Answer} {w : Waiter}

theorem Inv.fewer (h : Inv s) (hd : s.delivering = some (token, answer)) :
    RequestsOk s.serial s.inFlight s.delivering (s.waiting.erase (token, w)) s.spent s.sent s.failed :=
  { h.requests with
    owner := fun p hp => h.requests.owner p (List.mem_of_mem_erase hp)
    captured := fun t u l hmem => h.requests.captured t u l (List.mem_of_mem_erase hmem)
    waits := fun t a ha => by
      obtain ⟨w', hw'⟩ := h.requests.waits t a ha
      refine ⟨w', (List.mem_erase_of_ne fun heq => ?_).mpr hw'⟩
      cases (h.requests.gone _ hd).symm.trans ((Prod.mk.inj heq).1 ▸ ha) }

theorem Inv.follow (h : Inv s) (hd : s.delivering = some (token, answer))
    {tokens : List (Text × Token)} (hf : Follows token (pairs s.stored) tokens answer)
    (honce : (tokens.map Prod.fst).Nodup) :
    TokensOk s.serial s.inFlight s.delivering (s.waiting.erase (token, w)) s.logouts s.accounts s.spent tokens := by
  have hans : Answered s.inFlight s.delivering token answer := .inr hd
  have honly : ∀ a, Answered s.inFlight s.delivering token a → a = answer := by
    rintro a (ht | ht)
    · cases (h.requests.gone _ hd).symm.trans ht
    · exact (Prod.mk.inj (Option.some.inj (ht.symm.trans hd))).2
  have hpending : ∀ p ∈ pairs s.stored, p.2 ≠ token → p.2 ∈ s.spent →
      (∃ a, Answered s.inFlight s.delivering p.2 a ∧ a.isFinal = true) ∧
        ∃ w', (p.2, w') ∈ s.waiting.erase (token, w) := by
    intro p hp hne hs
    obtain ⟨ha, w', hw'⟩ := h.tokens.pending p hp hs
    exact ⟨ha, w', (List.mem_erase_of_ne fun heq => hne (Prod.mk.inj heq).1).mpr hw'⟩
  cases answer with
  | failed =>
    obtain rfl : tokens = pairs s.stored := hf
    refine { h.tokens with pending := fun p hp hs => hpending p hp (fun heq => ?_) hs }
    obtain ⟨⟨a, ha, hfinal⟩, -⟩ := h.tokens.pending p hp hs
    rw [honly a (heq ▸ ha)] at hfinal
    cases hfinal
  | refused =>
    exact
      { once := honce
        owner := fun p hp => h.tokens.owner p ((hf p).mp hp).1
        fresh := fun p hp => h.tokens.fresh p ((hf p).mp hp).1
        pending := fun p hp => hpending p ((hf p).mp hp).1 ((hf p).mp hp).2
        kept := fun p hp => h.tokens.kept p ((hf p).mp hp).1
        present := fun p hp => by
          obtain ⟨q, hq, hqp, ht⟩ := h.tokens.present p hp
          refine ⟨q, (hf q).mpr ⟨hq, fun heq => ?_⟩, hqp, ht⟩
          -- the account would have the token that is refused, or one issued for it
          rcases ht with ht | ht
          · exact (h.tokens.unspent p hp).1 (ht ▸ heq ▸ h.requests.final _ _ hans rfl)
          · cases honly _ (heq ▸ ht)
        unspent := h.tokens.unspent
        transit := fun t next hflight p hp => h.tokens.transit t next hflight p ((hf p).mp hp).1 }
  | ok next =>
    obtain ⟨hsent, hserial, huser⟩ := h.requests.next token next hans
    have hspent : next ∉ s.spent := fun hs => hsent (h.requests.known _ hs)
    have hnoanswer : ∀ a, a.isFinal = true → ¬ Answered s.inFlight s.delivering next a := fun a hfinal ha =>
      hspent (h.requests.final _ _ ha hfinal)
    exact
      { once := honce
        owner := fun p hp => by
          obtain ⟨q, hq, rfl⟩ := (hf p).mp hp
          have howner := h.tokens.owner q hq
          split
          · rename_i heq
            exact huser.trans (heq ▸ howner)
          · exact howner
        fresh := fun p hp => by
          obtain ⟨q, hq, rfl⟩ := (hf p).mp hp
          split
          · exact hserial
          · exact h.tokens.fresh q hq
        pending := fun p hp hs => by
          obtain ⟨q, hq, rfl⟩ := (hf p).mp hp
          split at hs
          · exact absurd hs hspent
          · rename_i hne
            rw [if_neg hne]
            exact hpending q hq hne hs
        kept := fun p hp => by
          obtain ⟨q, hq, rfl⟩ := (hf p).mp hp
          refine (h.tokens.kept q hq).imp_right fun hk => ?_
          split
          · rename_i heq
            exact ⟨fun _ => hk.2 next (heq ▸ hans), fun next' ha => absurd ha (hnoanswer _ rfl)⟩
          · exact hk
        present := fun p hp => by
          obtain ⟨q, hq, hqp, ht⟩ := h.tokens.present p hp
          refine ⟨_, (hf _).mpr ⟨q, hq, rfl⟩, hqp, ?_⟩
          by_cases heq : q.2 = token
          · simp only [if_pos heq]
            left
            rcases ht with ht | ht
            · exact absurd (ht ▸ heq ▸ h.requests.final _ _ hans rfl) (h.tokens.unspent p hp).1
            · exact (Answer.ok.inj (honly _ (heq ▸ ht))).symm
          · simp only [if_neg heq]
            exact ht
        unspent := h.tokens.unspent
        transit := fun t next' hflight p hp => by
          obtain ⟨q, hq, rfl⟩ := (hf p).mp hp
          split
          · rintro rfl
            have heq := h.requests.inj t token next (.inl hflight) hans
            cases (h.requests.gone _ hd).symm.trans (heq ▸ hflight)
          · exact h.tokens.transit t next' hflight q hq }

variable {next : Token}

variable {l : List AccountEntry}

theorem pairs_map {f : AccountEntry → AccountEntry}
    (hf : ∀ a ∈ l, ((f a).userId, (f a).refreshToken) =
      (a.userId, if a.refreshToken = token then next else a.refreshToken)) :
    Follows token (pairs l) (pairs (l.map f)) (.ok next) := by
  intro p
  constructor
  · intro hp
    obtain ⟨b, hb, rfl⟩ := List.mem_map.mp hp
    obtain ⟨a, ha, rfl⟩ := List.mem_map.mp hb
    exact ⟨_, mem_pairs ha, hf a ha⟩
  · rintro ⟨q, hq, rfl⟩
    obtain ⟨a, ha, rfl⟩ := List.mem_map.mp hq
    exact List.mem_map.mpr ⟨f a, List.mem_map_of_mem ha, hf a ha⟩

theorem withToken_userId (userId : Text) (next : Token) (a : AccountEntry) :
    (Session.withToken userId next a).userId = a.userId := by
  unfold Session.withToken
  split <;> rfl

theorem withToken_isActive (userId : Text) (next : Token) (a : AccountEntry) :
    (Session.withToken userId next a).isActive = a.isActive := by
  unfold Session.withToken
  split <;> rfl

theorem Inv.withToken (h : Inv s) (huser : token.userId = userId)
    (hfree : ∀ a ∈ s.stored, a.userId = userId → a.refreshToken = token ∨ next = a.refreshToken) {a : AccountEntry}
    (ha : a ∈ s.stored) :
    (Session.withToken userId next a).refreshToken = if a.refreshToken = token then next else a.refreshToken := by
  unfold Session.withToken
  split
  · rename_i heq
    rcases hfree a ha heq with ht | ht
    · rw [if_pos ht]
    · split
      · rfl
      · exact ht
  · rename_i hne
    rw [if_neg]
    rintro rfl
    exact hne ((h.tokens.owner _ (mem_pairs ha)).symm.trans huser)

theorem pairs_filter (l : List AccountEntry) (userId : Text) :
    pairs (l.filter fun a => decide (a.userId ≠ userId)) = (pairs l).filter fun p => decide (p.1 ≠ userId) := by
  rw [pairs, pairs, List.filter_map]
  rfl

theorem Inv.without (h : Inv s) (huser : token.userId = userId)
    (hfree : ∀ a ∈ s.stored, a.userId = userId → a.refreshToken = token) :
    Follows token (pairs s.stored) ((pairs s.stored).filter fun p => decide (p.1 ≠ userId)) .refused := by
  intro p
  rw [List.mem_filter]
  refine and_congr_right fun hp => ?_
  constructor
  · rintro hne rfl
    exact of_decide_eq_true hne ((h.tokens.owner p hp).symm.trans huser)
  · intro hne
    obtain ⟨a, ha, rfl⟩ := List.mem_map.mp hp
    exact decide_eq_true fun heq => hne (hfree a ha heq)

theorem ids_filter (h : (l.map AccountEntry.userId).Nodup) (keep : AccountEntry → Bool) :
    ((l.filter keep).map AccountEntry.userId).Nodup :=
  h.sublist (List.filter_sublist.map AccountEntry.userId)

theorem OneActive.filter (h : OneActive l) (keep : AccountEntry → Bool) :
    OneActive (l.filter keep) := fun a ha b hb => h a (List.mem_filter.mp ha).1 b (List.mem_filter.mp hb).1

theorem Inv.ids (h : Inv s) : (s.stored.map AccountEntry.userId).Nodup := by
  rw [← map_fst_pairs]
  exact h.tokens.once

/-- The list that `switchAccount` writes. -/
def switched (userId : Text) (next : Token) (l : List AccountEntry) : List AccountEntry :=
  l.map fun a => { Session.withToken userId next a with isActive := decide (a.userId = userId) }

theorem mem_others {tokens tokens' : List (Text × Token)}
    (hsame : tokens.filter (fun p => decide (p.1 ≠ userId)) = tokens'.filter fun p => decide (p.1 ≠ userId))
    {p : Text × Token} (hne : p.1 ≠ userId) : p ∈ tokens ↔ p ∈ tokens' := by
  have hiff : p ∈ tokens.filter (fun p => decide (p.1 ≠ userId)) ↔
      p ∈ tokens'.filter fun p => decide (p.1 ≠ userId) := by rw [hsame]
  simpa [List.mem_filter, hne] using hiff

theorem Inv.switched (h : Inv s) (huser : token.userId = userId)
    (hfree : ∀ a ∈ s.stored, a.userId = userId → a.refreshToken = token ∨ next = a.refreshToken)
    (hkept : userId ∈ s.stored.map AccountEntry.userId) (hmem : userId ∈ l.map AccountEntry.userId)
    (hsame : (pairs s.stored).filter (fun p => decide (p.1 ≠ userId)) =
      (pairs l).filter fun p => decide (p.1 ≠ userId)) :
    Follows token (pairs s.stored) (pairs (switched userId next l)) (.ok next) := by
  have hothers : ∀ p : Text × Token, p.1 ≠ userId → (p ∈ pairs s.stored ↔ p ∈ pairs l) :=
    fun _ hne => mem_others hsame hne
  -- the pair of an account after the change, and what it is made of
  have hself : ∀ a ∈ s.stored, a.userId = userId →
      (if a.refreshToken = token then next else a.refreshToken) = next := by
    intro a ha heq
    split
    · rfl
    · rename_i hne
      exact ((hfree a ha heq).resolve_left hne).symm
  have hother : ∀ p ∈ pairs s.stored, p.1 ≠ userId → p.2 ≠ token := by
    rintro p hp hne rfl
    exact hne ((h.tokens.owner p hp).symm.trans huser)
  intro p
  constructor
  · intro hp
    obtain ⟨b, hb, rfl⟩ := List.mem_map.mp hp
    obtain ⟨a, ha, rfl⟩ := List.mem_map.mp hb
    by_cases heq : a.userId = userId
    · obtain ⟨b, hb, hbu⟩ := List.mem_map.mp hkept
      refine ⟨_, mem_pairs hb, ?_⟩
      simp [Session.withToken, hself b hb hbu, heq, hbu]
    · have hstored := (hothers (a.userId, a.refreshToken) heq).mpr (mem_pairs ha)
      refine ⟨_, hstored, ?_⟩
      simp only [Session.withToken, if_neg heq, if_neg (hother _ hstored heq)]
  · rintro ⟨q, hq, rfl⟩
    obtain ⟨a, ha, rfl⟩ := List.mem_map.mp hq
    by_cases heq : a.userId = userId
    · obtain ⟨b, hb, hbu⟩ := List.mem_map.mp hmem
      refine List.mem_map.mpr ⟨_, List.mem_map_of_mem hb, ?_⟩
      simp [Session.withToken, hself a ha heq, heq, hbu]
    · obtain ⟨b, hb, hba⟩ := List.mem_map.mp ((hothers _ heq).mp hq)
      have hne : b.userId ≠ userId := (Prod.mk.inj hba).1 ▸ heq
      have hsame : Session.withToken userId next b = b := if_neg hne
      refine List.mem_map.mpr ⟨_, List.mem_map_of_mem hb, ?_⟩
      rw [if_neg (hother _ hq heq), hsame]
      exact hba

theorem switched_ids (h : (l.map AccountEntry.userId).Nodup) :
    ((switched userId next l).map AccountEntry.userId).Nodup := by
  have hids : (switched userId next l).map AccountEntry.userId = l.map AccountEntry.userId := by
    rw [switched, List.map_map]
    exact List.map_congr_left fun a _ => withToken_userId userId next a
  exact hids ▸ h

theorem switched_active : OneActive (switched userId next l) := by
  have huser : ∀ a ∈ switched userId next l, a.isActive = true → a.userId = userId := by
    intro a ha hactive
    obtain ⟨a₀, -, rfl⟩ := List.mem_map.mp ha
    exact (withToken_userId userId next a₀).trans (of_decide_eq_true hactive)
  exact fun a ha b hb hactive hactive' => (huser a ha hactive).trans (huser b hb hactive').symm

theorem Inv.goOn (h : Inv s) (hw : (token, w) ∈ s.waiting)
    (hclear : answer.isFinal = true → s.Undisturbed token answer w) :
    Follows token (pairs s.stored) (pairs (s.goOn answer w).stored) answer ∧
      ((s.goOn answer w).stored.map AccountEntry.userId).Nodup ∧ OneActive (s.goOn answer w).stored := by
  have huser : token.userId = w.userId := h.requests.owner _ hw
  cases w with
  | renewal userId =>
    cases answer with
    | failed => exact ⟨rfl, h.ids, h.active⟩
    | refused =>
      refine ⟨(pairs_filter s.stored userId).symm ▸ h.without huser fun a ha heq => ?_, ids_filter h.ids _,
        h.active.filter _⟩
      exact (hclear rfl a ha heq).elim id fun hok => by cases hok
    | ok next =>
      have hfree : ∀ a ∈ s.stored, a.userId = userId → a.refreshToken = token ∨ next = a.refreshToken :=
        fun a ha heq => (hclear rfl a ha heq).imp_right Answer.ok.inj
      refine ⟨pairs_map fun a ha => ?_, ?_, ?_⟩
      · have htoken := h.withToken (show token.userId = userId from huser) hfree ha
        rw [withToken_userId, htoken]
      · have hids : (s.stored.map (Session.withToken userId next)).map AccountEntry.userId =
            s.stored.map AccountEntry.userId := by
          rw [List.map_map]
          exact List.map_congr_left fun a _ => withToken_userId userId next a
        exact hids ▸ h.ids
      · intro a ha b hb hactive hactive'
        obtain ⟨a₀, ha₀, rfl⟩ := List.mem_map.mp ha
        obtain ⟨b₀, hb₀, rfl⟩ := List.mem_map.mp hb
        rw [withToken_isActive] at hactive hactive'
        rw [withToken_userId, withToken_userId]
        exact h.active a₀ ha₀ b₀ hb₀ hactive hactive'
  | switch userId l =>
    obtain ⟨hnodup, hmem, hone⟩ := h.requests.captured _ _ _ hw
    cases answer with
    | failed => exact ⟨rfl, h.ids, h.active⟩
    | refused =>
      obtain ⟨hfree, -, hsame⟩ := hclear rfl
      have hpairs := (pairs_filter l userId).trans hsame.symm
      refine ⟨hpairs.symm ▸ h.without huser fun a ha heq => ?_, ids_filter hnodup _, hone.filter _⟩
      exact (hfree a ha heq).elim id fun hok => by cases hok
    | ok next =>
      obtain ⟨hfree, hkept, hsame⟩ := hclear rfl
      exact
        ⟨h.switched huser (fun a ha heq => (hfree a ha heq).imp_right Answer.ok.inj) (hkept fun heq => by cases heq) hmem
          hsame, switched_ids hnodup, switched_active⟩

theorem Inv.resume (h : Inv s) (hd : s.delivering = some (token, answer))
    (hw : (token, w) ∈ s.waiting) (hclear : answer.isFinal = true → s.Undisturbed token answer w) :
    Inv ({ s with waiting := s.waiting.erase (token, w) : Session }.goOn answer w) := by
  obtain ⟨hf, hids, hactive⟩ := h.goOn hw hclear
  have htokens := h.follow hd (w := w) hf (by rw [map_fst_pairs]; exact hids)
  have hrequests := h.fewer hd (w := w)
  cases w with
  | renewal userId => cases answer <;> exact ⟨hrequests, htokens, hactive⟩
  | switch userId l => cases answer <;> exact ⟨hrequests, htokens, hactive⟩

section Login
variable {l : List AccountEntry} {entry : AccountEntry} {single : Bool}

theorem mem_pairs_login {p : Text × Token} :
    p ∈ pairs (Session.accountsAfterLogin l entry single) ↔
      (single = false ∧ p ∈ pairs l ∧ p.1 ≠ entry.userId) ∨ p = (entry.userId, entry.refreshToken) := by
  cases single with
  | true => simp [Session.accountsAfterLogin, pairs]
  | false =>
    have hothers : pairs ((l.map fun a => { a with isActive := false }).filter fun a => decide (a.userId ≠ entry.userId)) =
        (pairs l).filter fun p => decide (p.1 ≠ entry.userId) := by
      rw [pairs_filter, pairs, List.map_map]
      rfl
    have happ : pairs (Session.accountsAfterLogin l entry false) =
        ((pairs l).filter fun p => decide (p.1 ≠ entry.userId)) ++ [(entry.userId, entry.refreshToken)] := by
      rw [← hothers]
      exact List.map_append
    rw [happ, List.mem_append, List.mem_filter, List.mem_singleton, decide_eq_true_iff]
    simp

theorem ids_login (h : (l.map AccountEntry.userId).Nodup) :
    ((Session.accountsAfterLogin l entry single).map AccountEntry.userId).Nodup := by
  unfold Session.accountsAfterLogin
  split
  · exact List.nodup_singleton _
  · have hids : (l.map fun a => { a with isActive := false }).map AccountEntry.userId = l.map AccountEntry.userId := by
      rw [List.map_map]
      rfl
    rw [List.map_append]
    refine List.nodup_append.mpr ⟨ids_filter (hids ▸ h) _, List.nodup_singleton _, ?_⟩
    intro u hu v hv heq
    obtain ⟨a, ha, rfl⟩ := List.mem_map.mp hu
    have hne := of_decide_eq_true (List.mem_filter.mp ha).2
    exact hne (heq.trans (List.mem_singleton.mp hv))

theorem active_login {a : AccountEntry} (ha : a ∈ Session.accountsAfterLogin l entry single)
    (hactive : a.isActive = true) : a = entry := by
  unfold Session.accountsAfterLogin at ha
  split at ha
  · exact List.mem_singleton.mp ha
  · rcases List.mem_append.mp ha with ha | ha
    · obtain ⟨b, -, rfl⟩ := List.mem_map.mp (List.mem_filter.mp ha).1
      cases hactive
    · exact List.mem_singleton.mp ha

end Login

theorem Inv.login (h : Inv s) (single : Bool) (userId : Text) : Inv (s.acceptLogin single userId) := by
  have hnew : ∀ t : Token, t.serial < s.serial → t ≠ ⟨userId, s.serial⟩ := by
    rintro t hlt rfl
    exact lt_irrefl _ hlt
  have hspent : (⟨userId, s.serial⟩ : Token) ∉ s.spent := fun hs =>
    hnew _ (h.requests.fresh _ (h.requests.known _ hs)) rfl
  have haccounts : ∀ p, p ∈ (if single then [] else s.accounts.filter fun p => decide (p.1 ≠ userId)) ++
      [(userId, (⟨userId, s.serial⟩ : Token))] ↔
        (single = false ∧ p ∈ s.accounts ∧ p.1 ≠ userId) ∨ p = (userId, ⟨userId, s.serial⟩) := by
    cases single <;> simp
  have hpairs : ∀ p, p ∈ pairs (s.acceptLogin single userId).stored ↔
      (single = false ∧ p ∈ pairs s.stored ∧ p.1 ≠ userId) ∨ p = (userId, ⟨userId, s.serial⟩) := fun _ => mem_pairs_login
  refine ⟨{ h.requests with next := ?_, fresh := ?_ }, ?_, ?_⟩
  · intro t next ha
    obtain ⟨hsent, hlt, huser⟩ := h.requests.next t next ha
    exact ⟨hsent, hlt.trans (Nat.lt_succ_self _), huser⟩
  · exact fun t ht => (h.requests.fresh t ht).trans (Nat.lt_succ_self _)
  · exact
      { once := by
          rw [map_fst_pairs]
          exact ids_login h.ids
        owner := fun p hp => by
          rcases (hpairs p).mp hp with ⟨-, hp, -⟩ | rfl
          · exact h.tokens.owner p hp
          · rfl
        fresh := fun p hp => by
          rcases (hpairs p).mp hp with ⟨-, hp, -⟩ | rfl
          · exact (h.tokens.fresh p hp).trans (Nat.lt_succ_self _)
          · exact Nat.lt_succ_self _
        pending := fun p hp hs => by
          rcases (hpairs p).mp hp with ⟨-, hp, -⟩ | rfl
          · exact h.tokens.pending p hp hs
          · exact absurd hs hspent
        kept := fun p hp => by
          rcases (hpairs p).mp hp with ⟨hsingle, hp, hne⟩ | rfl
          · exact (h.tokens.kept p hp).imp_right fun hk =>
              ⟨fun hs => (haccounts p).mpr (.inl ⟨hsingle, hk.1 hs, hne⟩),
                fun next ha => (haccounts _).mpr (.inl ⟨hsingle, hk.2 next ha, hne⟩)⟩
          · exact .inr ⟨fun _ => (haccounts _).mpr (.inr rfl),
              fun next ha => absurd (h.requests.final _ _ ha rfl) hspent⟩
        present := fun p hp => by
          rcases (haccounts p).mp hp with ⟨hsingle, hp, hne⟩ | rfl
          · obtain ⟨q, hq, hqp, ht⟩ := h.tokens.present p hp
            exact ⟨q, (hpairs q).mpr (.inl ⟨hsingle, hq, fun heq => hne (hqp ▸ heq)⟩), hqp, ht⟩
          · exact ⟨_, (hpairs _).mpr (.inr rfl), rfl, .inl rfl⟩
        unspent := fun p hp => by
          rcases (haccounts p).mp hp with ⟨-, hp, -⟩ | rfl
          · exact h.tokens.unspent p hp
          · exact ⟨hspent, rfl⟩
        transit := fun t next hflight p hp => by
          rcases (hpairs p).mp hp with ⟨-, hp, -⟩ | rfl
          · exact h.tokens.transit t next hflight p hp
          · exact (hnew next (h.requests.next t next (.inl hflight)).2.1).symm }
  · intro a ha b hb hactive hactive'
    rw [active_login ha hactive, active_login hb hactive']

theorem Inv.removeActive (h : Inv s) (hactive : ∀ a ∈ s.stored, a.isActive = true ↔ a.userId = userId)
    (hout : userId ∉ s.accounts.map Prod.fst) {logouts : List Text}
    (hlogouts : ∀ u ∈ s.logouts, u = userId ∨ u ∈ logouts) :
    Inv ({ s with logouts : Session }.removeActive) := by
  have hstored : ∀ a, a ∈ s.stored.filter (fun a => !a.isActive) ↔ a ∈ s.stored ∧ a.userId ≠ userId := by
    intro a
    rw [List.mem_filter]
    refine and_congr_right fun ha => ?_
    have hiff := hactive a ha
    cases hact : a.isActive <;> simp_all
  have hpairs : ∀ p, p ∈ pairs (s.stored.filter fun a => !a.isActive) ↔ p ∈ pairs s.stored ∧ p.1 ≠ userId := by
    intro p
    constructor
    · intro hp
      obtain ⟨a, ha, rfl⟩ := List.mem_map.mp hp
      obtain ⟨ha, hne⟩ := (hstored a).mp ha
      exact ⟨mem_pairs ha, hne⟩
    · rintro ⟨hp, hne⟩
      obtain ⟨a, ha, rfl⟩ := List.mem_map.mp hp
      exact mem_pairs ((hstored a).mpr ⟨ha, hne⟩)
  have htokens : TokensOk s.serial s.inFlight s.delivering s.waiting logouts s.accounts s.spent
      (pairs (s.stored.filter fun a => !a.isActive)) :=
    { once := by
        rw [map_fst_pairs]
        exact ids_filter h.ids _
      owner := fun p hp => h.tokens.owner p ((hpairs p).mp hp).1
      fresh := fun p hp => h.tokens.fresh p ((hpairs p).mp hp).1
      pending := fun p hp => h.tokens.pending p ((hpairs p).mp hp).1
      kept := fun p hp => (h.tokens.kept p ((hpairs p).mp hp).1).imp_left fun hu =>
        (hlogouts _ hu).resolve_left ((hpairs p).mp hp).2
      present := fun p hp => by
        obtain ⟨q, hq, hqp, ht⟩ := h.tokens.present p hp
        refine ⟨q, (hpairs q).mpr ⟨hq, fun heq => hout ?_⟩, hqp, ht⟩
        rw [← heq, hqp]
        exact List.mem_map_of_mem hp
      unspent := h.tokens.unspent
      transit := fun t next hflight p hp => h.tokens.transit t next hflight p ((hpairs p).mp hp).1 }
  exact ⟨h.requests, htokens, h.active.filter _⟩

theorem Inv.logoutAsk (h : Inv s) (userId : Text) :
    Inv { s with
      accounts := s.accounts.filter fun p => decide (p.1 ≠ userId)
      logouts := s.logouts ++ [userId] } :=
  { h with
    tokens :=
      { h.tokens with
        kept := fun p hp => by
          by_cases heq : p.1 = userId
          · exact .inl (List.mem_append_right _ (List.mem_singleton.mpr heq))
          · refine (h.tokens.kept p hp).imp (List.mem_append_left _) fun hk => ⟨fun hs => ?_, fun next ha => ?_⟩
            · exact List.mem_filter.mpr ⟨hk.1 hs, decide_eq_true heq⟩
            · exact List.mem_filter.mpr ⟨hk.2 next ha, decide_eq_true heq⟩
        present := fun p hp => h.tokens.present p (List.mem_filter.mp hp).1
        unspent := fun p hp => h.tokens.unspent p (List.mem_filter.mp hp).1 } }

theorem Inv.logout (h : Inv s) (asks : Bool) : Inv (s.logout asks) := by
  unfold Session.logout
  split
  · rename_i hnone
    have hall : (s.stored.filter fun a => !a.isActive) = s.stored := by
      refine List.filter_eq_self.mpr fun a ha => ?_
      simpa using List.find?_eq_none.mp hnone a ha
    rw [Session.removeActive, hall]
    exact h
  · rename_i current hcurrent
    have hmem := List.mem_of_find?_eq_some hcurrent
    have hcur : current.isActive = true := List.find?_some hcurrent
    have hask := h.logoutAsk current.userId
    split
    · exact hask
    · have hiff : ∀ a ∈ s.stored, a.isActive = true ↔ a.userId = current.userId := by
        refine fun a ha => ⟨fun hactive => h.active a ha current hmem hactive hcur, fun heq => ?_⟩
        rw [List.inj_on_of_nodup_map h.ids ha hmem heq]
        exact hcur
      refine hask.removeActive hiff ?_ fun u hu => ?_
      · simp
      · exact (List.mem_append.mp hu).symm.imp_left List.mem_singleton.mp

theorem step_inv {single : Bool} {e : Event} (h : Inv s) (hclear : Clear s e) (hstep : step single s e = some s') :
    Inv s' := by
  have hidle : s.delivering.isSome = false → s.delivering = none := fun hd => by simpa using hd
  cases e with
  | answer token reply =>
    simp only [step] at hstep
    obtain ⟨hget, rfl⟩ := Option.ite_some_none_eq_some.1 hstep
    exact h.answer hget.1 reply
  | resume =>
    simp only [step] at hstep
    split at hstep
    · cases hstep
    · rename_i token answer hd
      split at hstep
      · rename_i hnone
        obtain rfl := Option.some.inj hstep
        refine h.delivered hd fun w hw => ?_
        have hfind := List.find?_eq_none.mp (Option.map_eq_none_iff.mp hnone) _ hw
        simp at hfind
      · rename_i w waiting hnext
        obtain rfl := Option.some.inj hstep
        have hundisturbed := fun hfinal => hclear _ hd hfinal _ hnext
        obtain ⟨⟨t, w'⟩, hfind, heq⟩ := Option.map_eq_some_iff.mp hnext
        obtain ⟨rfl, rfl⟩ := Prod.mk.inj heq
        obtain rfl : t = token := by simpa using List.find?_some hfind
        exact h.resume hd (List.mem_of_find?_eq_some hfind) hundisturbed
  | renew =>
    simp only [step] at hstep
    split at hstep
    · cases hstep
    · rename_i hd
      obtain rfl := Option.some.inj hstep
      exact h.renew (hidle (by simpa using hd))
  | switchAccount userId =>
    simp only [step] at hstep
    split at hstep
    · cases hstep
    · rename_i hd
      obtain rfl := Option.some.inj hstep
      exact h.switchAccount (hidle (by simpa using hd)) userId
  | login userId =>
    simp only [step] at hstep
    split at hstep
    · cases hstep
    · obtain rfl := Option.some.inj hstep
      exact h.login single userId
  | logout asks =>
    simp only [step] at hstep
    split at hstep
    · cases hstep
    · obtain rfl := Option.some.inj hstep
      exact h.logout asks
  | logoutDone k =>
    simp only [step] at hstep
    split at hstep
    · cases hstep
    · split at hstep
      · cases hstep
      · rename_i userId hk
        obtain rfl := Option.some.inj hstep
        obtain ⟨hactive, hout⟩ := hclear userId hk
        exact h.removeActive hactive hout fun u hu => mem_or_mem_eraseIdx hk hu
  | arrive token =>
    simp only [step] at hstep
    split at hstep
    · cases hstep
    · rename_i hd
      split at hstep
      · rename_i answer hget
        obtain rfl := Option.some.inj hstep
        exact h.arrive (hidle (by simpa using hd)) hget
      · cases hstep

theorem start_inv : Inv start where
  requests :=
    { owner := fun _ hp => by cases hp
      captured := fun _ _ _ hp => by cases hp
      waits := fun _ _ ha => by cases ha
      gone := fun _ hd => by cases hd
      final := fun _ _ ha => by rcases ha with ha | ha <;> cases ha
      next := fun _ _ ha => by rcases ha with ha | ha <;> cases ha
      inj := fun _ _ _ ha => by rcases ha with ha | ha <;> cases ha
      known := fun _ ht => by cases ht
      flying := fun _ _ ha => by cases ha
      fresh := fun _ ht => by cases ht
      counts := fun _ => Nat.zero_le _ }
  tokens :=
    { once := List.nodup_nil
      owner := fun _ hp => by cases hp
      fresh := fun _ hp => by cases hp
      pending := fun _ hp => by cases hp
      kept := fun _ hp => by cases hp
      present := fun _ hp => by cases hp
      unspent := fun _ hp => by cases hp
      transit := fun _ _ ha => by cases ha }
  active _ ha := by cases ha

theorem Inv.kept (h : Inv s) (hquiet : Quiet s) : Kept s := by
  obtain ⟨hflight, hdelivering, hlogouts⟩ := hquiet
  have hnone : ∀ t a, ¬ Answered s.inFlight s.delivering t a := by
    rintro t a (ht | ht)
    · have hmem := KeyedMap.mem_iff.mpr ht
      rw [hflight] at hmem
      cases hmem
    · cases hdelivering.symm.trans ht
  refine ⟨fun userId token => ⟨?_, fun hp => ?_⟩, h.ids, fun a ha b hb hactive hactive' => ?_⟩
  · rintro ⟨a, ha, rfl, rfl⟩
    have hmem := mem_pairs ha
    rcases h.tokens.kept _ hmem with hout | hk
    · rw [hlogouts] at hout
      cases hout
    · refine hk.1 fun hs => ?_
      obtain ⟨⟨answer, hanswer, -⟩, -⟩ := h.tokens.pending _ hmem hs
      exact hnone _ _ hanswer
  · obtain ⟨q, hq, hqp, ht⟩ := h.tokens.present _ hp
    obtain ⟨a, ha, rfl⟩ := List.mem_map.mp hq
    exact ⟨a, ha, hqp, ht.resolve_right (hnone _ _)⟩
  · exact List.inj_on_of_nodup_map h.ids ha hb (h.active a ha b hb hactive hactive')

end Steps

/-- Whenever no request is in flight, the accounts kept are those logged in, each with the last token issued to it;
and a token is sent again only after a request that has failed. -/
theorem accounts_kept (single : Bool) (s : Session) (hrun : Run (step single) Clear start s) :
    (Quiet s → Kept s) ∧ ∀ token, s.sent.count token ≤ s.failed.count token + 1 := by
  have h := hrun.invariant Inv start_inv fun _ _ _ h hclear hstep => step_inv h hclear hstep
  refine ⟨h.kept, fun token => (h.requests.counts token).trans (Nat.add_le_add_left ?_ _)⟩
  split <;> omega

instance (s : Session) : Decidable (Quiet s) := inferInstanceAs (Decidable (_ ∧ _))

/-- Two accounts; the renewal of the active one fails once, then goes through while the user goes back to the other
account. -/
theorem accounts_kept_switch :
    ∃ s : Session, s.stored.map (fun a => (a.userId, a.refreshToken.serial, a.isActive)) =
      [(['a'], 3, true), (['b'], 2, false)] ∧ s.sent.length = 3 ∧ Kept s := by
  have hrun : Run (step false) Clear start _ := run_of_exec
    [.login ['a'], .login ['b'], .renew, .answer ⟨['b'], 1⟩ .fail, .arrive ⟨['b'], 1⟩, .resume, .resume, .renew,
      .answer ⟨['b'], 1⟩ .accept, .arrive ⟨['b'], 1⟩, .resume, .resume, .switchAccount ['a'],
      .answer ⟨['a'], 0⟩ .accept, .arrive ⟨['a'], 0⟩, .resume, .resume] _ _ rfl
  exact ⟨_, by decide +kernel, by decide +kernel, (accounts_kept false _ hrun).1 (by decide +kernel)⟩

/-- The list that a change of account has read undoes the renewal of the active account; and a request that fails is
sent again. -/
theorem token_lost_and_resent :
    (¬ ∀ s, Run (step false) (fun _ _ => True) start s → Quiet s → Kept s) ∧
      ¬ ∀ s, Run (step false) (fun _ _ => True) start s → s.sent.Nodup := by
  constructor
  · intro h
    have hrun : Run (step false) (fun _ _ => True) start _ := run_of_exec
      [.login ['a'], .login ['b'], .renew, .switchAccount ['a'], .answer ⟨['b'], 1⟩ .accept,
        .answer ⟨['a'], 0⟩ .accept, .arrive ⟨['b'], 1⟩, .resume, .resume, .arrive ⟨['a'], 0⟩, .resume, .resume] _ _ rfl
    have htokens := ((h _ hrun (by decide +kernel)).tokens ['b'] ⟨['b'], 2⟩).mpr (by decide +kernel)
    revert htokens
    decide +kernel
  · intro h
    have hrun : Run (step false) (fun _ _ => True) start _ := run_of_exec
      [.login ['a'], .renew, .answer ⟨['a'], 0⟩ .fail, .arrive ⟨['a'], 0⟩, .resume, .resume, .renew] _ _ rfl
    have hsent := h _ hrun
    revert hsent
    decide +kernel

end Savoire.Accounts
