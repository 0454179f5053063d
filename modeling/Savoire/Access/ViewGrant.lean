import Savoire.Access.Behavior

/-! View grants: created under the checks of a command, carried by two signed tokens, and judged
on every later request as the caller `view:{vault}:{document}:{permission}`. -/
namespace Savoire.Access
open ShareLinkGuard VaultAccessBehavior

structure CreateViewGrantCommand where
  callerId : Option Text
  shareToken : Option Text
  vaultId : Option Text
  docId : Option Text
  path : Option Text
  requestedPermission : Option Text

structure ViewGrantPayload where
  vaultId : Text
  docId : Text
  path : Text
  permission : Text
  userId : Option Text
  expiresAtUtc : Nat
  deriving DecidableEq

namespace CreateViewGrant

def ticksPerMinute : Nat := 600000000

def normalizePermission (requested : Option Text) : Except Refusal Text :=
  let p := ((requested.getD "read".toList).trim).toLowerInvariant
  if p = "read".toList then .ok "read".toList
  else if p = "write".toList then .ok "write".toList
  else .error (.accessDenied "Permission invalide (read|write).")

def allowed (link : ShareLink) (vaultId docId : Text) : Bool :=
  match link.resourceType with
  | .vault => link.resourceId == vaultId
  | .document => link.resourceId == docId

def ensureLinkCanAccessDocument (link : ShareLink) (now : Nat) (vaultId docId : Text)
    (requestedPermission : Text) : Except Refusal Unit :=
  if !allowed link vaultId docId then .error (.accessDenied "Lien de partage non valide pour ce document.")
  else if requestedPermission = "write".toList ∧ !link.allowsWrite now then
    .error (.accessDenied "Lien de partage sans permission d'ecriture.")
  else .ok ()

/-- The branch of a signed-in account. -/
def requireAppUser (s : Store) (callerId vaultId permission : Text) : Except Refusal Unit :=
  match Vaults.getById s vaultId with
  | none => .error (.vaultNotFound vaultId)
  | some vault =>
    if vault.isOwner callerId then .ok ()
    else match Vaults.getMember s vaultId callerId with
      | none => .error (.accessDenied "Acces refuse.")
      | some member =>
        if permission = "write".toList ∧ member.role = .viewer then
          .error (.accessDenied "Permission d'ecriture requise.")
        else .ok ()

/-- The branches of the command; the result is the user that the grant names. -/
def authorize (s : Store) (now : Nat) (callerId shareToken : Option Text)
    (vaultId docId permission : Text) : Except Refusal Text :=
  match shareToken, Text.isNullOrWhiteSpace shareToken with
  | some token, false =>
    match ShareLinks.getByToken s token with
    | none => .error (.accessDenied "Lien de partage invalide ou expire.")
    | some link =>
      if !link.isValid now then .error (.accessDenied "Lien de partage invalide ou expire.")
      else match ensureLinkCanAccessDocument link now vaultId docId permission with
        | .error e => .error e
        | .ok () => .ok (sharePrefix ++ link.id)
  | _, _ =>
    match callerId, Text.isNullOrWhiteSpace callerId with
    | some callerId, false =>
      let checked :=
        if isViewCaller callerId || isShareLinkCaller callerId then
          if permission = "write".toList then
            requireDocumentWrite s now callerId vaultId docId
          else requireDocumentRead s now callerId vaultId docId
        else requireAppUser s callerId vaultId permission
      match checked with
      | .error e => .error e
      | .ok () => .ok callerId
    | _, _ => .error (.accessDenied "Authentification requise.")

def handle (s : Store) (now : Nat) (cmd : CreateViewGrantCommand) :
    Except Refusal ViewGrantPayload :=
  match normalizePermission cmd.requestedPermission with
  | .error e => .error e
  | .ok permission =>
    match cmd.docId, cmd.vaultId with
    | some docId, some vaultId =>
      if docId.all Text.isWhiteSpace || vaultId.all Text.isWhiteSpace then
        .error (.accessDenied "docId et vaultId sont requis.")
      else match authorize s now cmd.callerId cmd.shareToken vaultId docId permission with
        | .error e => .error e
        | .ok userId => .ok
          { vaultId := vaultId, docId := docId, path := cmd.path.getD [],
            permission := permission, userId := some userId,
            expiresAtUtc := now + 2 * ticksPerMinute }
    | _, _ => .error (.accessDenied "docId et vaultId sont requis.")

end CreateViewGrant

structure Token where
  claims : List (String × Text)
  expires : Nat

namespace TokenService

def findFirstValue (t : Token) (name : String) : Option Text :=
  (t.claims.find? fun c => c.1 == name).map (·.2)

def viewClaims (payload : ViewGrantPayload) : List (String × Text) :=
  [("view_vault_id", payload.vaultId), ("view_doc_id", payload.docId),
    ("view_path", payload.path), ("view_permission", payload.permission)] ++
  match payload.userId, Text.isNullOrWhiteSpace payload.userId with
  | some userId, false => [("view_user_id", userId)]
  | _, _ => []

def generateViewGrantToken (payload : ViewGrantPayload) : Token :=
  ⟨("sub", "view-grant".toList) :: viewClaims payload, payload.expiresAtUtc⟩

/-- Reads a token whose signature and lifetime the JWT library has validated. -/
def readViewGrantToken (t : Token) : Except Refusal ViewGrantPayload :=
  match findFirstValue t "sub" with
  | none => .error (.accessDenied "View grant invalide.")
  | some subject =>
    if subject != "view-grant".toList && !subject.startsWith viewPrefix then
      .error (.accessDenied "View grant invalide.")
    else match findFirstValue t "view_vault_id" with
      | none => .error (.accessDenied "View grant invalide (vault).")
      | some vaultId => match findFirstValue t "view_doc_id" with
        | none => .error (.accessDenied "View grant invalide (document).")
        | some docId => match findFirstValue t "view_path" with
          | none => .error (.accessDenied "View grant invalide (path).")
          | some path => match findFirstValue t "view_permission" with
            | none => .error (.accessDenied "View grant invalide (permission).")
            | some permission =>
              .ok ⟨vaultId, docId, path, permission, findFirstValue t "view_user_id", t.expires⟩

def viewSubject (payload : ViewGrantPayload) : Text :=
  viewPrefix ++ payload.vaultId ++ ":".toList ++ payload.docId ++ ":".toList ++ payload.permission

def generateViewAccessToken (payload : ViewGrantPayload) (now : Nat) : Token :=
  ⟨("sub", viewSubject payload) :: viewClaims payload,
    now + 8 * 60 * CreateViewGrant.ticksPerMinute⟩

end TokenService
open TokenService

def redeemViewGrant (now : Nat) (t : Token) : Except Refusal Token :=
  match readViewGrantToken t with
  | .error e => .error e
  | .ok payload => .ok (generateViewAccessToken payload now)

def callerOf (t : Token) : Text := (findFirstValue t "sub").getD []

def CreateViewGrant.creator (s : Store) (cmd : CreateViewGrantCommand) : Text :=
  match cmd.shareToken, Text.isNullOrWhiteSpace cmd.shareToken with
  | some token, false => ((ShareLinks.getByToken s token).map (sharePrefix ++ ·.id)).getD []
  | _, _ => cmd.callerId.getD []

def NeverAmplifies (s : Store) (now : Nat) (creator subject : Text) : Prop :=
  ∀ (s' : Store) (now' : Nat) (r : Request), check s' now' subject r = .ok () →
    check s now creator r = .ok ()

def GrantConfined (s : Store) (now : Nat) (creator vaultId docId : Text) : Prop :=
  ':' ∉ vaultId ∧ ':' ∉ docId ∧
    (isLinkCaller creator = false → Registered s docId vaultId) ∧
    (isShareLinkCaller creator = true → ∀ link, LiveLink s now creator link →
      link.resourceType = .vault)

theorem isViewCaller_share (id : Text) : isViewCaller (sharePrefix ++ id) = false := by
  simp [isViewCaller, Text.startsWith, viewPrefix, sharePrefix, List.isPrefixOf]

theorem isShareLinkCaller_share (id : Text) : isShareLinkCaller (sharePrefix ++ id) = true := by
  simp [isShareLinkCaller]

theorem isViewCaller_view (rest : Text) : isViewCaller (viewPrefix ++ rest) = true := by
  simp [isViewCaller]

theorem not_view_of_share (callerId : Text) (h : isShareLinkCaller callerId = true) :
    isViewCaller callerId = false := by
  obtain ⟨id, rfl⟩ := (Text.startsWith_iff _ _).1 h
  exact isViewCaller_share id

variable (p : ViewGrantPayload)

theorem isViewCaller_subject : isViewCaller (viewSubject p) = true := by
  exact isViewCaller_view _

theorem readViewGrantToken_grant :
    ∃ userId, readViewGrantToken (generateViewGrantToken p) =
      .ok { p with userId := userId } := by
  exact ⟨findFirstValue (generateViewGrantToken p) "view_user_id", rfl⟩

theorem callerOf_redeem (now : Nat) (t : Token)
    (h : redeemViewGrant now (generateViewGrantToken p) = .ok t) :
    callerOf t = viewSubject p := by
  obtain ⟨userId, hr⟩ := readViewGrantToken_grant p
  simp only [redeemViewGrant, hr, Except.ok.injEq] at h
  subst h
  simp [callerOf, findFirstValue, generateViewAccessToken, viewSubject]

theorem normalizePermission_ok (requested : Option Text) (p : Text)
    (h : CreateViewGrant.normalizePermission requested = .ok p) :
    p = "read".toList ∨ p = "write".toList := by
  unfold CreateViewGrant.normalizePermission at h
  dsimp only at h
  split at h
  · exact .inl (by cases h; rfl)
  · split at h
    · exact .inr (by cases h; rfl)
    · cases h

/-- What each branch of the command has checked of the user that the grant names. -/
inductive Authorized (s : Store) (now : Nat) (u vaultId docId permission : Text) : Prop
  | view (v : View) : isViewCaller u = true → parseViewCaller u = .ok v → v.vaultId = vaultId →
      v.docId = docId → (permission = "write".toList → v.permission = "write".toList) →
      Authorized s now u vaultId docId permission
  | link (l : ShareLink) : isShareLinkCaller u = true → LiveLink s now u l →
      (l.resourceType = .vault ∧ l.resourceId = vaultId) ∨
        (l.resourceType = .document ∧ l.resourceId = docId) →
      (permission = "write".toList → l.permission = .write) →
      Authorized s now u vaultId docId permission
  | account : isLinkCaller u = false → Owns s u vaultId ∨
      IsMember s u vaultId (permission == "write".toList) →
      Authorized s now u vaultId docId permission

theorem allowed_iff (link : ShareLink) (vaultId docId : Text) :
    CreateViewGrant.allowed link vaultId docId = true ↔
      (link.resourceType = .vault ∧ link.resourceId = vaultId) ∨
        (link.resourceType = .document ∧ link.resourceId = docId) := by
  cases hr : link.resourceType <;> simp [CreateViewGrant.allowed, hr]

theorem ensureLink_ok (link : ShareLink) (now : Nat) (vaultId docId permission : Text)
    (h : CreateViewGrant.ensureLinkCanAccessDocument link now vaultId docId permission = .ok ()) :
    CreateViewGrant.allowed link vaultId docId = true ∧
      (permission = "write".toList → link.permission = .write) := by
  unfold CreateViewGrant.ensureLinkCanAccessDocument at h
  split at h
  · cases h
  · rename_i hallowed
    split at h
    · cases h
    · rename_i hwrite
      refine ⟨by simpa using hallowed, fun hp => ?_⟩
      by_contra hne
      exact hwrite ⟨hp, by simp [ShareLink.allowsWrite, hne]⟩

variable (s : Store)

theorem requireAppUser_ok (u vaultId permission : Text)
    (h : CreateViewGrant.requireAppUser s u vaultId permission = .ok ()) :
    Owns s u vaultId ∨ IsMember s u vaultId (permission == "write".toList) := by
  unfold CreateViewGrant.requireAppUser at h
  split at h
  · cases h
  · rename_i vault hvault
    split at h
    · rename_i ho
      exact .inl ⟨vault, hvault, by simpa [Vault.isOwner] using ho⟩
    · split at h
      · cases h
      · rename_i member hmember
        split at h
        · cases h
        · rename_i hrole
          refine .inr ⟨⟨vault, hvault⟩, member, hmember, fun hw hv => hrole ⟨?_, hv⟩⟩
          simpa using hw

variable (now : Nat)

theorem authorized_of_documentCheck (u vaultId docId permission : Text)
    (hc : isLinkCaller u = true)
    (h : (if permission = "write".toList then requireDocumentWrite s now u vaultId docId
      else requireDocumentRead s now u vaultId docId) = .ok ()) :
    Authorized s now u vaultId docId permission := by
  let level : VaultAccessLevel := if permission = "write".toList then .write else .read
  have hlevel : level = .write ↔ permission = "write".toList := by
    by_cases hp : permission = "write".toList <;> simp [level, hp]
  have hcheck : checkDocument s now u vaultId docId level = .ok () := by
    simpa only [checkDocument, hc, if_true, hlevel] using h
  rcases checkDocument_link s now u vaultId docId level hc hcheck with
    ⟨hview, view, hparse, hv, hd, hw⟩ | ⟨hview, link, hlive, ht, hw⟩
  · exact .view view hview hparse hv hd fun hp => hw (hlevel.2 hp)
  · refine .link link ?_ hlive ht fun hp => hw (hlevel.2 hp)
    simpa [isLinkCaller, hview] using hc

theorem authorize_ok (cmd : CreateViewGrantCommand)
    (vaultId docId permission u : Text)
    (h : CreateViewGrant.authorize s now cmd.callerId cmd.shareToken vaultId docId permission =
      .ok u) :
    u = CreateViewGrant.creator s cmd ∧ Authorized s now u vaultId docId permission := by
  unfold CreateViewGrant.authorize at h
  unfold CreateViewGrant.creator
  split at h
  · split at h
    · cases h
    · rename_i link hlink
      split at h
      · cases h
      · rename_i hvalid
        split at h
        · cases h
        · rename_i hensure
          obtain rfl : sharePrefix ++ link.id = u := by simpa using h
          obtain ⟨htarget, hwrite⟩ := ensureLink_ok link now vaultId docId permission hensure
          have hmem : link ∈ s.shareLinks := List.mem_of_find?_eq_some hlink
          refine ⟨by simp [hlink], .link link (isShareLinkCaller_share _) ⟨?_, ?_⟩
            ((allowed_iff link vaultId docId).1 htarget) hwrite⟩
          · exact ShareLinks.getById_of_mem hmem
          · simpa using hvalid
  · split at h
    · rename_i callerId hcaller hblank
      dsimp only at h
      split at h
      · cases h
      · rename_i hchecked
        obtain rfl : callerId = u := by simpa using h
        refine ⟨by simp [hcaller], ?_⟩
        cases hc : isLinkCaller callerId with
        | true =>
          have hor : (isViewCaller callerId || isShareLinkCaller callerId) = true := by
            rw [Bool.or_comm]; exact hc
          rw [if_pos hor] at hchecked
          exact authorized_of_documentCheck s now callerId vaultId docId permission hc hchecked
        | false =>
          have hor : ¬ (isViewCaller callerId || isShareLinkCaller callerId) = true := by
            rw [Bool.or_comm]; simpa [isLinkCaller] using hc
          rw [if_neg hor] at hchecked
          exact .account hc (requireAppUser_ok s callerId vaultId permission hchecked)
    · cases h

theorem handle_ok (cmd : CreateViewGrantCommand) (p : ViewGrantPayload)
    (h : CreateViewGrant.handle s now cmd = .ok p) :
    cmd.vaultId = some p.vaultId ∧ cmd.docId = some p.docId ∧
      (p.permission = "read".toList ∨ p.permission = "write".toList) ∧
      Authorized s now (CreateViewGrant.creator s cmd) p.vaultId p.docId p.permission := by
  unfold CreateViewGrant.handle at h
  split at h
  · cases h
  · rename_i permission hpermission
    split at h
    · rename_i docId vaultId hdoc hvault
      split at h
      · cases h
      · split at h
        · cases h
        · rename_i u hauth
          obtain ⟨hu, ha⟩ := authorize_ok s now cmd vaultId docId permission u hauth
          cases h
          exact ⟨hvault, hdoc, normalizePermission_ok _ _ hpermission, hu ▸ ha⟩
    · cases h

theorem check_view (u : Text) (v : View) (hu : isViewCaller u = true)
    (hp : parseViewCaller u = .ok v) (r : Request) :
    check s now u r = .ok () ↔ match r with
      | .vault vaultId level _ => v.vaultId = vaultId ∧ level ≠ .admin ∧
          (level = .write → v.permission = "write".toList)
      | .document vaultId docId level => v.vaultId = vaultId ∧ v.docId = docId ∧
          (level = .write → v.permission = "write".toList) := by
  have hc : isLinkCaller u = true := by simp [isLinkCaller, hu]
  cases r with
  | vault vaultId level attachmentId =>
    cases level with
    | read => cases attachmentId <;>
        simp [check, checkVault, hc, requireAttachmentRead, requireVaultRead, requireScope_ok,
          hu, hp]
    | write => simp [check, checkVault, hc, requireVaultWrite, requireScope_ok, hu, hp]
    | admin => simp [check, checkVault, hc]
  | document vaultId docId level =>
    by_cases hw : level = .write
    · simp [check, checkDocument, hc, hw, requireDocumentWrite, requireScope_ok, hu, hp, and_assoc]
    · simp [check, checkDocument, hc, hw, requireDocumentRead, requireScope_ok, hu, hp]

theorem check_vaultLink (u : Text) (l : ShareLink)
    (hu : isShareLinkCaller u = true) (hl : LiveLink s now u l) (ht : l.resourceType = .vault)
    (r : Request)
    (hr : match r with
      | .vault vaultId level _ => l.resourceId = vaultId ∧ level ≠ .admin ∧
          (level = .write → l.permission = .write)
      | .document vaultId _ level => l.resourceId = vaultId ∧
          (level = .write → l.permission = .write)) :
    check s now u r = .ok () := by
  have hc : isLinkCaller u = true := by simp [isLinkCaller, hu]
  have hv : isViewCaller u = false := not_view_of_share u hu
  have hlive : l.isValid now = true := hl.2
  cases r with
  | vault vaultId level attachmentId =>
    obtain ⟨rfl, hadmin, hwrite⟩ := hr
    have hread : requireVaultRead s now u l.resourceId = .ok () :=
      (requireScope_ok ..).2 (.inr ⟨hv, l, hl, by simp [ht]⟩)
    cases level with
    | read =>
      simp only [check, checkVault, hc, if_true]
      cases attachmentId with
      | none => exact hread
      | some a => exact (requireAttachmentRead_ok ..).2 (.inl hread)
    | write =>
      simp only [check, checkVault, hc, if_true]
      exact (requireScope_ok ..).2
        (.inr ⟨hv, l, hl, by simp [ht, ShareLink.allowsWrite, hwrite, hlive]⟩)
    | admin => exact absurd rfl hadmin
  | document vaultId docId level =>
    obtain ⟨rfl, hwrite⟩ := hr
    simp only [check, checkDocument, hc, if_true]
    by_cases hw : level = .write
    · rw [if_pos hw]
      exact (requireScope_ok ..).2
        (.inr ⟨hv, l, hl, by simp [ht, ShareLink.allowsWrite, hwrite hw, hlive]⟩)
    · rw [if_neg hw]
      exact (requireScope_ok ..).2 (.inr ⟨hv, l, hl, by simp [ht]⟩)

theorem check_account (u vaultId : Text) (write : Bool)
    (hu : isLinkCaller u = false) (ho : Owns s u vaultId ∨ IsMember s u vaultId write)
    (r : Request)
    (hr : match r with
      | .vault v level _ => v = vaultId ∧ level ≠ .admin ∧ (level = .write → write = true)
      | .document v docId level => v = vaultId ∧ Registered s docId vaultId ∧
          (level = .write → write = true)) :
    check s now u r = .ok () := by
  have hread : Owns s u vaultId ∨ IsMember s u vaultId false :=
    ho.imp_right fun ⟨hv, m, hm, _⟩ => ⟨hv, m, hm, by simp⟩
  cases r with
  | vault v level attachmentId =>
    obtain ⟨rfl, hadmin, hwrite⟩ := hr
    simp only [check, checkVault, hu, Bool.false_eq_true, if_false]
    cases level with
    | read => exact (VaultAccessGuard.requireRead_ok ..).2 hread
    | write => exact (VaultAccessGuard.requireWrite_ok ..).2 (hwrite rfl ▸ ho)
    | admin => exact absurd rfl hadmin
  | document v docId level =>
    obtain ⟨rfl, hdoc, hwrite⟩ := hr
    simp only [check, checkDocument, hu, Bool.false_eq_true, if_false]
    by_cases hw : level = .write
    · rw [if_pos hw]
      exact (VaultAccessGuard.requireDocumentWrite_ok ..).2
        ⟨hdoc, (hwrite hw ▸ ho).imp_right .inl⟩
    · rw [if_neg hw]
      exact (VaultAccessGuard.requireDocumentRead_ok ..).2 ⟨hdoc, hread.imp_right .inl⟩

section
variable (s : Store) (now : Nat) (u vaultId docId permission : Text)

theorem never_amplifies_of_confined (ha : Authorized s now u vaultId docId permission)
    (hc : GrantConfined s now u vaultId docId) (subject : Text)
    (hs : isViewCaller subject = true)
    (hp : parseViewCaller subject = .ok ⟨vaultId, docId, permission⟩) :
    NeverAmplifies s now u subject := by
  intro s' now' r hpass
  have hscope := (check_view s' now' subject _ hs hp r).1 hpass
  obtain ⟨-, -, hdoc, hlink⟩ := hc
  cases ha with
  | view v hu hparse hv hd hw =>
    refine (check_view s now u v hu hparse r).2 ?_
    cases r with
    | vault v' level a => exact ⟨hv ▸ hscope.1, hscope.2.1, fun hl => hw (hscope.2.2 hl)⟩
    | document v' d' level =>
      exact ⟨hv ▸ hscope.1, hd ▸ hscope.2.1, fun hl => hw (hscope.2.2 hl)⟩
  | link l hu hlive ht hw =>
    have hvault : l.resourceType = .vault := hlink hu l hlive
    have hid : l.resourceId = vaultId := by simpa [hvault] using ht
    refine check_vaultLink s now u l hu hlive hvault r ?_
    cases r with
    | vault v' level a => exact ⟨hid.trans hscope.1, hscope.2.1, fun hl => hw (hscope.2.2 hl)⟩
    | document v' d' level => exact ⟨hid.trans hscope.1, fun hl => hw (hscope.2.2 hl)⟩
  | account hu ho =>
    refine check_account s now u vaultId (permission == "write".toList) hu ho r ?_
    cases r with
    | vault v' level a =>
      exact ⟨hscope.1.symm, hscope.2.1, fun hl => beq_iff_eq.2 (hscope.2.2 hl)⟩
    | document v' d' level =>
      exact ⟨hscope.1.symm, hscope.2.1 ▸ hdoc hu, fun hl => beq_iff_eq.2 (hscope.2.2 hl)⟩

theorem confined_of_never_amplifies (subject : Text) (hs : isViewCaller subject = true)
    (hp : parseViewCaller subject = .ok ⟨vaultId, docId, permission⟩)
    (hn : NeverAmplifies s now u subject) : GrantConfined s now u vaultId docId := by
  obtain ⟨hv, hd⟩ := parseViewCaller_parts subject _ hp
  refine ⟨hv, hd, fun hu => ?_, fun hu l hl => ?_⟩
  · have hpass : check s now u (.document vaultId docId .read) = .ok () :=
      hn s now _ ((check_view s now subject _ hs hp _).2 ⟨rfl, rfl, by simp⟩)
    exact (checkDocument_account s now u vaultId docId .read hu hpass).1
  · have hpass : check s now u (.vault vaultId .read none) = .ok () :=
      hn s now _ ((check_view s now subject _ hs hp _).2 ⟨rfl, by simp, by simp⟩)
    simp only [check, checkVault, isLinkCaller, hu, Bool.true_or, if_true] at hpass
    rcases (requireScope_ok ..).1 hpass with ⟨hview, -⟩ | ⟨-, l', hl', hok⟩
    · simp [not_view_of_share u hu] at hview
    · obtain rfl : l = l' := by simpa [hl.1] using hl'.1
      simp only [Bool.and_eq_true, beq_iff_eq] at hok
      exact hok.1

end

/-- A created and redeemed grant amplifies no right and parses back to what was granted exactly
when it is confined. -/
theorem view_grant_faithful_iff (s : Store) (now now' : Nat) (cmd : CreateViewGrantCommand)
    (p : ViewGrantPayload) (vaultId docId : Text) (t : Token)
    (h : CreateViewGrant.handle s now cmd = .ok p) (hv : cmd.vaultId = some vaultId)
    (hd : cmd.docId = some docId)
    (hr : redeemViewGrant now' (generateViewGrantToken p) = .ok t) :
    (NeverAmplifies s now (CreateViewGrant.creator s cmd) (callerOf t) ∧
      parseViewCaller (callerOf t) = .ok ⟨vaultId, docId, p.permission⟩) ↔
      GrantConfined s now (CreateViewGrant.creator s cmd) vaultId docId := by
  obtain ⟨hv', hd', hperm, ha⟩ := handle_ok s now cmd p h
  obtain rfl : vaultId = p.vaultId := by simpa [hv] using hv'
  obtain rfl : docId = p.docId := by simpa [hd] using hd'
  rw [callerOf_redeem p now' t hr]
  have hs : isViewCaller (viewSubject p) = true := isViewCaller_subject p
  constructor
  · rintro ⟨hn, hp⟩
    exact confined_of_never_amplifies s now _ _ _ _ _ hs hp hn
  · intro hc
    have hlower : p.permission.toLowerInvariant = p.permission := by
      rcases hperm with he | he <;> rw [he] <;> decide
    have hp : parseViewCaller (viewSubject p) = .ok ⟨p.vaultId, p.docId, p.permission⟩ := by
      rw [viewSubject, parseViewCaller_format _ _ _ hc.1 hc.2.1, hlower]
    exact ⟨never_amplifies_of_confined s now _ _ _ _ ha hc _ hs hp, hp⟩

/-- The owner of the first vault asks for a view of a document. -/
def grantOf (docId : Text) : CreateViewGrantCommand :=
  ⟨some "ann".toList, none, some "v".toList, some docId, none, none⟩

/-- The owner of a vault grants a view of a document that is registered in another one. -/
theorem view_grant_amplifies :
    ¬ ∀ (s : Store) (now now' : Nat) (cmd : CreateViewGrantCommand) (p : ViewGrantPayload)
      (t : Token), CreateViewGrant.handle s now cmd = .ok p →
      redeemViewGrant now' (generateViewGrantToken p) = .ok t →
      NeverAmplifies s now (CreateViewGrant.creator s cmd) (callerOf t) ∧
        parseViewCaller (callerOf t) = .ok ⟨p.vaultId, p.docId, p.permission⟩ := by
  intro hall
  obtain ⟨hn, -⟩ := hall twoVaults 0 0 (grantOf "d".toList) _ _ rfl rfl
  have hpass := hn twoVaults 0 (.document "v".toList "d".toList .read) rfl
  cases hpass

theorem view_grant_faithful_own :
    ∃ p t, CreateViewGrant.handle twoVaults 0 (grantOf "c".toList) = .ok p ∧
      redeemViewGrant 0 (generateViewGrantToken p) = .ok t ∧
      NeverAmplifies twoVaults 0 "ann".toList (callerOf t) := by
  refine ⟨_, _, rfl, rfl, ?_⟩
  exact ((view_grant_faithful_iff twoVaults 0 0 (grantOf "c".toList) _ "v".toList "c".toList _
    rfl rfl rfl rfl).2 ⟨by decide, by decide, fun _ => rfl,
      fun hu => absurd hu (by decide)⟩).1

end Savoire.Access
