import Savoire.Library.Transition
import Savoire.Library.Utf
import Savoire.Text

/-! The servers that the desktop application knows and the session of each: two stores and two files. -/
namespace Savoire.Servers
open Transition

def maxServers : ℕ := 10
def maxUrlLen : ℕ := 2048
def maxSessionLen : ℕ := 64 * 1024

/-- `s.len()` -/
def byteLen (s : Text) : ℕ := (s.flatMap Utf.utf8).length

/-- `char::is_control` -/
def isControl (c : Char) : Bool := c.toNat < 0x20 || 0x7F ≤ c.toNat && c.toNat < 0xA0

def stripStart (start s : Text) : Option Text := if start.isPrefixOf s then some (s.drop start.length) else none

def stripScheme (url : Text) : Option Text :=
  (stripStart "https://".toList url).or (stripStart "http://".toList url)

def isRefused (c : Char) : Bool := Text.isWhiteSpace c || isControl c || "?#@\\".toList.contains c

def validateUrl (url : Text) : Except Text Text :=
  let url := url.trim
  if url = [] ∨ maxUrlLen < byteLen url then .error "adresse de serveur invalide".toList
  else
    match stripScheme url with
    | none => .error "l'adresse doit commencer par http:// ou https://".toList
    | some rest =>
      if rest.takeWhile (· ≠ '/') = [] then .error "adresse de serveur sans hote".toList
      else if url.any isRefused then .error "adresse de serveur invalide".toList
      else .ok (url.rdropWhile (· == '/'))

structure ServerList where
  /-- The latest first. -/
  servers : List Text
  current : Option Text
  deriving DecidableEq

def select (list : ServerList) (url : Text) : ServerList :=
  ⟨(url :: list.servers.filter (· ≠ url)).take maxServers, some url⟩

def forget (list : ServerList) (url : Text) : ServerList :=
  ⟨list.servers.filter (· ≠ url), if list.current = some url then none else list.current⟩

abbrev Sessions := Text → Option Text

structure ServerSettings where
  list : ServerList
  sessions : Sessions
  serversFile : ServerList
  sessionsFile : Sessions

/-- No files yet. -/
def empty : ServerSettings := ⟨⟨[], none⟩, fun _ => none, ⟨[], none⟩, fun _ => none⟩

namespace ServerSettings

/-- How a file was saved: the old one stays where that failed. -/
abbrev Save := Except Text Unit

def load (s : ServerSettings) : ServerSettings := { s with list := s.serversFile, sessions := s.sessionsFile }

def saveList (s : ServerSettings) (save : Save) : Except Text ServerList × ServerSettings :=
  match save with
  | .error e => (.error e, s)
  | .ok () => (.ok s.list, { s with serversFile := s.list })

def saveSessions {α : Type} (s : ServerSettings) (save : Save) (value : α) : Except Text α × ServerSettings :=
  match save with
  | .error e => (.error e, s)
  | .ok () => (.ok value, { s with sessionsFile := s.sessions })

def select (s : ServerSettings) (url : Text) (save : Save) : Except Text ServerList × ServerSettings :=
  match validateUrl url with
  | .error e => (.error e, s)
  | .ok url => { s with list := Servers.select s.list url }.saveList save

def forget (s : ServerSettings) (url : Text) (save save' : Save) : Except Text ServerList × ServerSettings :=
  match { s with list := Servers.forget s.list url }.saveList save with
  | (.error e, s) => (.error e, s)
  | (.ok list, s) =>
    if (s.sessions url).isSome then { s with sessions := Function.update s.sessions url none }.saveSessions save' list
    else (.ok list, s)

def setSession (s : ServerSettings) (url : Text) (data : Option Text) (save : Save) :
    Except Text Unit × ServerSettings :=
  match validateUrl url with
  | .error e => (.error e, s)
  | .ok url =>
    match data with
    | some d =>
      if maxSessionLen < byteLen d then (.error "session trop grande".toList, s)
      -- no entry for a server that was not chosen
      else if url ∉ s.list.servers then (.error "serveur inconnu".toList, s)
      else { s with sessions := Function.update s.sessions url (some d) }.saveSessions save ()
    | none =>
      if (s.sessions url).isNone then (.ok (), s)
      else { s with sessions := Function.update s.sessions url none }.saveSessions save ()

end ServerSettings

open ServerSettings (Save)

inductive Event
  | select (url : Text) (save : Save)
  | forget (url : Text) (saveList saveSessions : Save)
  | setSession (url : Text) (data : Option Text) (save : Save)
  | restart

/-- The error of an operation, if any, and the settings after it. -/
def act (s : ServerSettings) : Event → Except Text Unit × ServerSettings
  | .select url save => ((s.select url save).1.map fun _ => (), (s.select url save).2)
  | .forget url save save' => ((s.forget url save save').1.map fun _ => (), (s.forget url save save').2)
  | .setSession url data save => s.setSession url data save
  | .restart => (.ok (), s.load)

def step (s : ServerSettings) (e : Event) : Option ServerSettings := some (act s e).2

structure Consistent (s : ServerSettings) : Prop where
  nodup : s.list.servers.Nodup
  bounded : s.list.servers.length ≤ maxServers
  current : ∀ u, s.list.current = some u → u ∈ s.list.servers
  sessions : ∀ u, (s.sessions u).isSome → u ∈ s.list.servers
  valid : ∀ u ∈ s.list.servers, validateUrl u = .ok u

/-- An operation that returns an error changes nothing. -/
def Atomic (s : ServerSettings) (e : Event) : Prop := ∀ err, (act s e).1 = .error err → (act s e).2 = s

def Clean (s : ServerSettings) : Event → Prop
  | .select url save => ∀ u, validateUrl url = .ok u → (save ≠ .ok () → select s.list u = s.list) ∧
      ∀ v ∈ s.list.servers, v ∉ (select s.list u).servers → s.sessions v = none
  | .forget url save save' => (save ≠ .ok () → forget s.list url = s.list) ∧
      (save = .ok () → (s.sessions url).isSome → save' = .ok ())
  | .setSession url data save => ∀ u, validateUrl url = .ok u → u ∈ s.list.servers → save ≠ .ok () →
      data = s.sessions u ∨ ∃ d, data = some d ∧ maxSessionLen < byteLen d
  | .restart => True

/-- The stores are consistent and the files are theirs. -/
structure Inv (s : ServerSettings) : Prop extends Consistent s where
  listSaved : s.serversFile = s.list
  sessionsSaved : s.sessionsFile = s.sessions

/-- What an operation under the condition keeps, and that the condition is exact. -/
def Exact (s : ServerSettings) (e : Event) : Prop :=
  (Clean s e → Inv (act s e).2) ∧ ((Consistent (act s e).2 ∧ Atomic s e) ↔ Clean s e)

section Addresses
variable {url u rest start s : Text}

theorem stripStart_eq : stripStart start s = some rest ↔ s = start ++ rest := by
  rw [stripStart]
  split_ifs with h
  · obtain ⟨t, rfl⟩ := List.isPrefixOf_iff_prefix.1 h
    simp [eq_comm]
  · simp only [false_iff]
    rintro rfl
    exact h (List.isPrefixOf_iff_prefix.2 (List.prefix_append _ _))

theorem stripScheme_eq : stripScheme s = some rest ↔ s = "https://".toList ++ rest ∨ s = "http://".toList ++ rest := by
  rw [stripScheme, Option.or_eq_some_iff, stripStart_eq, stripStart_eq]
  constructor
  · rintro (h | ⟨-, h⟩)
    · exact .inl h
    · exact .inr h
  · rintro (h | rfl)
    · exact .inl h
    · exact .inr ⟨rfl, rfl⟩

theorem validateUrl_eq_ok (url u : Text) : validateUrl url = .ok u ↔ ∃ rest, url.trim ≠ [] ∧
    byteLen url.trim ≤ maxUrlLen ∧ stripScheme url.trim = some rest ∧ rest.takeWhile (· ≠ '/') ≠ [] ∧
    url.trim.any isRefused = false ∧ url.trim.rdropWhile (· == '/') = u := by
  rw [validateUrl]
  by_cases h : url.trim = [] ∨ maxUrlLen < byteLen url.trim
  · rw [if_pos h]
    constructor
    · intro hok
      cases hok
    · rintro ⟨rest, hne, hlen, -⟩
      exact absurd h (not_or.2 ⟨hne, not_lt.2 hlen⟩)
  · rw [if_neg h]
    obtain ⟨hne, hlen⟩ := not_or.1 h
    cases hs : stripScheme url.trim with
    | none => simp
    | some rest =>
      by_cases hhost : rest.takeWhile (· ≠ '/') = []
      · simp only [if_pos hhost]
        constructor
        · intro hok
          cases hok
        · rintro ⟨rest', -, -, heq, hhost', -⟩
          obtain rfl := Option.some.inj heq
          exact absurd hhost hhost'
      · simp only [if_neg hhost]
        by_cases hchars : url.trim.any isRefused = true
        · simp [hchars]
        · rw [if_neg hchars]
          constructor
          · intro hok
            exact ⟨rest, hne, not_lt.1 hlen, rfl, hhost, Bool.eq_false_iff.2 hchars, Except.ok.inj hok⟩
          · rintro ⟨-, -, -, -, -, -, rfl⟩
            rfl

theorem rdropWhile_append {p : Char → Bool} (a : Text) (h : s.rdropWhile p ≠ []) :
    (a ++ s).rdropWhile p = a ++ s.rdropWhile p := by
  have hne : ¬ (List.dropWhile p s.reverse).isEmpty = true := by simpa [List.rdropWhile] using h
  rw [List.rdropWhile, List.reverse_append, List.dropWhile_append, if_neg hne, List.reverse_append,
    List.reverse_reverse, ← List.rdropWhile]

theorem host_stays (h : s.takeWhile (· ≠ '/') ≠ []) :
    s.rdropWhile (· == '/') ≠ [] ∧ (s.rdropWhile (· == '/')).takeWhile (· ≠ '/') ≠ [] := by
  cases s with
  | nil => exact absurd rfl h
  | cons c s =>
    have hc : c ≠ '/' := by
      rintro rfl
      simp at h
    have hne : (c :: s).rdropWhile (· == '/') ≠ [] := by
      rw [ne_eq, List.rdropWhile_eq_nil_iff]
      intro hall
      exact hc (by simpa using hall c List.mem_cons_self)
    obtain ⟨v, hv⟩ := List.rdropWhile_prefix (· == '/') (c :: s)
    cases hk : (c :: s).rdropWhile (· == '/') with
    | nil => exact absurd hk hne
    | cons d k =>
      rw [hk] at hv
      obtain rfl : d = c := (List.cons.inj hv).1
      simp [hc]

theorem validateUrl_idem (h : validateUrl url = .ok u) : validateUrl u = .ok u := by
  obtain ⟨rest, hne, hlen, hscheme, hhost, hchars, rfl⟩ := (validateUrl_eq_ok _ _).1 h
  generalize url.trim = t at *
  obtain ⟨hrest, hhost'⟩ := host_stays hhost
  have hscheme' : stripScheme (t.rdropWhile (· == '/')) = some (rest.rdropWhile (· == '/')) := by
    rw [stripScheme_eq] at hscheme ⊢
    obtain rfl | rfl := hscheme
    · exact .inl (rdropWhile_append _ hrest)
    · exact .inr (rdropWhile_append _ hrest)
  have hpre : t.rdropWhile (· == '/') <+: t := List.rdropWhile_prefix _ _
  have hchars' : (t.rdropWhile (· == '/')).any isRefused = false := by
    rw [List.any_eq_false] at hchars ⊢
    exact fun c hc => hchars c (hpre.subset hc)
  have hplain : ∀ c ∈ t.rdropWhile (· == '/'), Text.isWhiteSpace c = false := by
    intro c hc
    rw [List.any_eq_false] at hchars'
    have := hchars' c hc
    rw [isRefused] at this
    simp_all
  have htrim : Text.trim (t.rdropWhile (· == '/')) = t.rdropWhile (· == '/') := by
    rw [Text.trim, Trim.trim_eq_self_iff]
    exact ⟨fun c hc => hplain c (List.mem_of_head? hc), fun c hc => hplain c (List.mem_of_getLast? hc)⟩
  have hlen' : byteLen (t.rdropWhile (· == '/')) ≤ byteLen t := by
    obtain ⟨v, hv⟩ := hpre
    conv_rhs => rw [← hv]
    rw [byteLen, byteLen, List.flatMap_append, List.length_append]
    exact Nat.le_add_right _ _
  rw [validateUrl_eq_ok, htrim]
  refine ⟨_, ?_, hlen'.trans hlen, hscheme', hhost', hchars', List.rdropWhile_idempotent _ _⟩
  intro hnil
  rw [hnil, stripScheme_eq] at hscheme'
  obtain h | h := hscheme'
  · cases h
  · cases h

end Addresses

section Operations
variable {s : ServerSettings} {list : ServerList} {u v : Text} {e : Event}

theorem mem_select : v ∈ (select list u).servers → v = u ∨ v ∈ list.servers := by
  intro h
  obtain rfl | h := List.mem_cons.1 (List.mem_of_mem_take h)
  · exact .inl rfl
  · exact .inr (List.mem_of_mem_filter h)

theorem select_head (list : ServerList) (u : Text) : u ∈ (select list u).servers := by
  simp [select, maxServers]

theorem Consistent.select (h : Consistent s) (hu : validateUrl u = .ok u) {file : ServerList} {sessionsFile : Sessions}
    (hlost : ∀ v ∈ s.list.servers, v ∉ (select s.list u).servers → s.sessions v = none) :
    Consistent ⟨Servers.select s.list u, s.sessions, file, sessionsFile⟩ where
  nodup := by
    apply List.Nodup.sublist (List.take_sublist _ _)
    exact List.nodup_cons.2 ⟨by simp, h.nodup.filter _⟩
  bounded := by
    rw [Servers.select, List.length_take]
    exact Nat.min_le_left _ _
  current := by
    rintro v ⟨⟩
    exact select_head _ _
  sessions := by
    intro v hv
    by_contra hnot
    have hmem := h.sessions v hv
    rw [hlost v hmem hnot] at hv
    cases hv
  valid := by
    intro v hv
    obtain rfl | hv := mem_select hv
    · exact hu
    · exact h.valid v hv

theorem Consistent.forget (h : Consistent s) {file : ServerList} {sessions sessionsFile : Sessions}
    (hle : ∀ v, (sessions v).isSome → (s.sessions v).isSome ∧ v ≠ u) :
    Consistent ⟨Servers.forget s.list u, sessions, file, sessionsFile⟩ where
  nodup := h.nodup.filter _
  bounded := (List.length_filter_le _ _).trans h.bounded
  current := by
    intro v hv
    simp only [Servers.forget] at hv ⊢
    split_ifs at hv with hcur
    refine List.mem_filter.2 ⟨h.current v hv, ?_⟩
    rw [decide_eq_true_eq]
    rintro rfl
    exact hcur hv
  sessions := by
    intro v hv
    obtain ⟨hsome, hne⟩ := hle v hv
    exact List.mem_filter.2 ⟨h.sessions v hsome, by simpa using hne⟩
  valid := fun v hv => h.valid v (List.mem_of_mem_filter hv)

theorem Consistent.setSession (h : Consistent s) {sessions sessionsFile : Sessions}
    (hle : ∀ v, (sessions v).isSome → (s.sessions v).isSome ∨ v ∈ s.list.servers) :
    Consistent ⟨s.list, sessions, s.serversFile, sessionsFile⟩ where
  __ := h
  sessions := fun v hv => (hle v hv).elim (h.sessions v) id

theorem Consistent.none_of_unlisted (h : Consistent s) (hv : v ∉ s.list.servers) : s.sessions v = none := by
  by_contra hne
  exact hv (h.sessions v (Option.isSome_iff_ne_none.2 hne))

/-- A call that changes nothing. -/
theorem stays_exact {e : Event} {r : Except Text Unit} (h : Inv s) (hact : act s e = (r, s)) (hclean : Clean s e) :
    Exact s e := by
  rw [Exact, Atomic, hact]
  exact ⟨fun _ => h, iff_of_true ⟨h.toConsistent, fun _ _ => rfl⟩ hclean⟩

theorem select_exact (h : Inv s) (url : Text) (save : Save) : Exact s (.select url save) := by
  cases hurl : validateUrl url with
  | error err =>
    refine stays_exact h (?_ : act s _ = (.error err, s)) fun u hu => ?_
    · simp [act, ServerSettings.select, hurl, Except.map]
    · rw [hurl] at hu
      cases hu
  | ok u =>
    have hclean : Clean s (.select url save) ↔ (save ≠ .ok () → select s.list u = s.list) ∧
        ∀ v ∈ s.list.servers, v ∉ (select s.list u).servers → s.sessions v = none := by
      rw [Clean, hurl]
      simp
    have hu := validateUrl_idem hurl
    rw [Exact, hclean]
    cases save with
    | error err =>
      have hact : act s (.select url (.error err)) = (.error err, { s with list := select s.list u }) := by
        simp [act, ServerSettings.select, hurl, ServerSettings.saveList, Except.map]
      rw [Atomic, hact]
      constructor
      · rintro ⟨hsame, -⟩
        rw [hsame (by simp)]
        exact h
      · constructor
        · rintro ⟨hcons, hatomic⟩
          exact ⟨fun _ => congrArg ServerSettings.list (hatomic err rfl), fun v _ hv => hcons.none_of_unlisted hv⟩
        · rintro ⟨hsame, hlost⟩
          exact ⟨h.toConsistent.select hu hlost, fun _ _ => by rw [hsame (by simp)]⟩
    | ok =>
      have hact : act s (.select url (.ok ())) =
          (.ok (), { s with list := select s.list u, serversFile := select s.list u }) := by
        simp [act, ServerSettings.select, hurl, ServerSettings.saveList, Except.map]
      rw [Atomic, hact]
      constructor
      · rintro ⟨-, hlost⟩
        exact ⟨h.toConsistent.select hu hlost, rfl, h.sessionsSaved⟩
      · constructor
        · rintro ⟨hcons, -⟩
          exact ⟨fun hne => absurd rfl hne, fun v _ hv => hcons.none_of_unlisted hv⟩
        · rintro ⟨-, hlost⟩
          refine ⟨h.toConsistent.select hu hlost, ?_⟩
          rintro err ⟨⟩

theorem forget_exact (h : Inv s) (url : Text) (save save' : Save) : Exact s (.forget url save save') := by
  rw [Exact, Clean]
  cases save with
  | error err =>
    have hact : act s (.forget url (.error err) save') = (.error err, { s with list := forget s.list url }) := rfl
    have hsame (heq : forget s.list url = s.list) : ({ s with list := forget s.list url } : ServerSettings) = s := by
      rw [heq]
    rw [Atomic, hact]
    constructor
    · rintro ⟨heq, -⟩
      rw [hsame (heq (by simp))]
      exact h
    · constructor
      · rintro ⟨-, hatomic⟩
        refine ⟨fun _ => congrArg ServerSettings.list (hatomic err rfl), ?_⟩
        rintro ⟨⟩
      · rintro ⟨heq, -⟩
        have heq := hsame (heq (by simp))
        exact ⟨heq.symm ▸ h.toConsistent, fun _ _ => heq⟩
  | ok =>
    cases hsession : s.sessions url with
    | none =>
      have hact : act s (.forget url (.ok ()) save') =
          (.ok (), { s with list := forget s.list url, serversFile := forget s.list url }) := by
        simp [act, ServerSettings.forget, ServerSettings.saveList, hsession, Except.map]
      have hcons : Consistent ⟨forget s.list url, s.sessions, forget s.list url, s.sessionsFile⟩ := by
        apply h.toConsistent.forget
        intro v hv
        refine ⟨hv, ?_⟩
        rintro rfl
        rw [hsession] at hv
        cases hv
      rw [Atomic, hact]
      refine ⟨fun _ => ⟨hcons, rfl, h.sessionsSaved⟩, iff_of_true ⟨hcons, ?_⟩ ⟨fun hne => absurd rfl hne, ?_⟩⟩
      · rintro err ⟨⟩
      · rintro - ⟨⟩
    | some d =>
      have hcons (file : ServerList) (sessionsFile : Sessions) :
          Consistent ⟨forget s.list url, Function.update s.sessions url none, file, sessionsFile⟩ := by
        apply h.toConsistent.forget
        intro v hv
        by_cases hvu : v = url
        · rw [hvu, Function.update_self] at hv
          cases hv
        · rw [Function.update_of_ne hvu] at hv
          exact ⟨hv, hvu⟩
      cases save' with
      | error err =>
        have hact : act s (.forget url (.ok ()) (.error err)) = (.error err, ⟨forget s.list url,
            Function.update s.sessions url none, forget s.list url, s.sessionsFile⟩) := by
          simp [act, ServerSettings.forget, ServerSettings.saveList, ServerSettings.saveSessions, hsession, Except.map]
        rw [Atomic, hact]
        constructor
        · rintro ⟨-, hno⟩
          cases hno rfl rfl
        · constructor
          · rintro ⟨-, hatomic⟩
            have hlost := congrFun (congrArg ServerSettings.sessions (hatomic err rfl)) url
            dsimp only at hlost
            rw [Function.update_self, hsession] at hlost
            cases hlost
          · rintro ⟨-, hno⟩
            cases hno rfl rfl
      | ok =>
        have hact : act s (.forget url (.ok ()) (.ok ())) = (.ok (), ⟨forget s.list url,
            Function.update s.sessions url none, forget s.list url, Function.update s.sessions url none⟩) := by
          simp [act, ServerSettings.forget, ServerSettings.saveList, ServerSettings.saveSessions, hsession, Except.map]
        rw [Atomic, hact]
        refine ⟨fun _ => ⟨hcons _ _, rfl, rfl⟩, iff_of_true ⟨hcons _ _, ?_⟩ ⟨fun hne => absurd rfl hne, fun _ _ => rfl⟩⟩
        rintro err ⟨⟩

theorem saveSessions_exact (h : Inv s) (hu : u ∈ s.list.servers) (data : Option Text) (save : Save) :
    let r := { s with sessions := Function.update s.sessions u data }.saveSessions save ()
    ((save ≠ .ok () → data = s.sessions u) → Inv r.2) ∧
      ((Consistent r.2 ∧ ∀ err, r.1 = .error err → r.2 = s) ↔ (save ≠ .ok () → data = s.sessions u)) := by
  have hcons (file : Sessions) :
      Consistent ⟨s.list, Function.update s.sessions u data, s.serversFile, file⟩ := by
    apply h.toConsistent.setSession
    intro v hv
    by_cases hvu : v = u
    · exact .inr (hvu ▸ hu)
    · rw [Function.update_of_ne hvu] at hv
      exact .inl hv
  cases save with
  | error err =>
    dsimp only [ServerSettings.saveSessions]
    have hsame (heq : data = s.sessions u) :
        ({ s with sessions := Function.update s.sessions u data } : ServerSettings) = s := by
      rw [heq, Function.update_eq_self]
    constructor
    · intro heq
      rw [hsame (heq (by simp))]
      exact h
    · constructor
      · rintro ⟨-, hatomic⟩ -
        have hget := congrFun (congrArg ServerSettings.sessions (hatomic err rfl)) u
        dsimp only at hget
        rwa [Function.update_self] at hget
      · intro heq
        exact ⟨hcons _, fun _ _ => hsame (heq (by simp))⟩
  | ok =>
    refine ⟨fun _ => ⟨hcons _, h.listSaved, rfl⟩, iff_of_true ⟨hcons _, ?_⟩ fun hne => absurd rfl hne⟩
    rintro err ⟨⟩

theorem setSession_exact (h : Inv s) (url : Text) (data : Option Text) (save : Save) :
    Exact s (.setSession url data save) := by
  cases hurl : validateUrl url with
  | error err =>
    apply stays_exact h (r := .error err)
    · simp [act, ServerSettings.setSession, hurl]
    · intro u hu
      rw [hurl] at hu
      cases hu
  | ok u =>
    have hclean : Clean s (.setSession url data save) ↔ (u ∈ s.list.servers → save ≠ .ok () →
        data = s.sessions u ∨ ∃ d, data = some d ∧ maxSessionLen < byteLen d) := by
      rw [Clean, hurl]
      simp
    cases data with
    | some d =>
      by_cases hlong : maxSessionLen < byteLen d
      · apply stays_exact h (r := .error "session trop grande".toList)
        · simp [act, ServerSettings.setSession, hurl, hlong]
        · exact hclean.2 fun _ _ => .inr ⟨d, rfl, hlong⟩
      · by_cases hknown : u ∈ s.list.servers
        · have hact : act s (.setSession url (some d) save) =
              { s with sessions := Function.update s.sessions u (some d) }.saveSessions save () := by
            simp [act, ServerSettings.setSession, hurl, hlong, hknown]
          have hcond : Clean s (.setSession url (some d) save) ↔ (save ≠ .ok () → some d = s.sessions u) := by
            rw [hclean]
            simp [hknown, hlong]
          rw [Exact, hcond, Atomic, hact]
          exact saveSessions_exact h hknown (some d) save
        · apply stays_exact h (r := .error "serveur inconnu".toList)
          · simp [act, ServerSettings.setSession, hurl, hlong, hknown]
          · exact hclean.2 fun hu => absurd hu hknown
    | none =>
      cases hsession : s.sessions u with
      | none =>
        apply stays_exact h (r := .ok ())
        · simp [act, ServerSettings.setSession, hurl, hsession]
        · exact hclean.2 fun _ _ => .inl hsession.symm
      | some d =>
        have hknown := h.sessions u (by rw [hsession, Option.isSome_some])
        have hact : act s (.setSession url none save) =
            { s with sessions := Function.update s.sessions u none }.saveSessions save () := by
          simp [act, ServerSettings.setSession, hurl, hsession]
        have hcond : Clean s (.setSession url none save) ↔ (save ≠ .ok () → none = s.sessions u) := by
          rw [hclean]
          simp [hknown]
        rw [Exact, hcond, Atomic, hact]
        exact saveSessions_exact h hknown none save

theorem act_exact (h : Inv s) (e : Event) : Exact s e := by
  cases e with
  | select url save => exact select_exact h url save
  | forget url save save' => exact forget_exact h url save save'
  | setSession url data save => exact setSession_exact h url data save
  | restart =>
    have hload : s.load = s := by
      have hlist := h.listSaved
      have hsessions := h.sessionsSaved
      cases s
      dsimp only at hlist hsessions
      rw [ServerSettings.load, hlist, hsessions]
    have hact : act s .restart = (.ok (), s) := by rw [act, hload]
    rw [Exact, Atomic, hact]
    exact ⟨fun _ => h, iff_of_true ⟨h.toConsistent, fun _ _ => rfl⟩ trivial⟩

theorem inv_empty : Inv empty where
  nodup := List.nodup_nil
  bounded := Nat.zero_le _
  current := by
    rintro u ⟨⟩
  sessions := by
    rintro u ⟨⟩
  valid := by
    rintro u ⟨⟩
  listSaved := rfl
  sessionsSaved := rfl

/-- The settings are consistent in every state reached by operations under the condition, and it is exact: in such a
state an operation keeps the stores consistent, and changes nothing when it fails, just when it meets it. -/
theorem settings_runs (h : Run step Clean empty s) :
    Consistent s ∧ ∀ e, (Consistent (act s e).2 ∧ Atomic s e) ↔ Clean s e := by
  have hinv : Inv s := by
    refine h.invariant Inv inv_empty ?_
    rintro t e t' ht hclean ⟨⟩
    exact (act_exact ht e).1 hclean
  exact ⟨hinv.toConsistent, fun e => (act_exact hinv e).2⟩

def address : Text := "http://a".toList

theorem settings_runs_selected : Consistent (act empty (.select address (.ok ()))).2 := by
  have hclean : Clean empty (.select address (.ok ())) := by
    intro u _
    refine ⟨fun hne => absurd rfl hne, ?_⟩
    rintro v ⟨⟩
  exact (settings_runs (.tail (.select address (.ok ())) .refl hclean rfl)).1

/-- Ten other servers are chosen after one with a session, and the session stays without its server. -/
theorem session_left : ∃ es : List Event,
    let s := es.foldl (fun s e => (act s e).2) empty
    (s.sessions address).isSome ∧ address ∉ s.list.servers := by
  refine ⟨.select address (.ok ()) :: .setSession address (some []) (.ok ()) ::
    "bcdefghijk".toList.map fun c => .select ("http://".toList ++ [c]) (.ok ()), ?_⟩
  decide

end Operations

end Savoire.Servers
