import Savoire.Access.Store

/-! The guard of share-link callers (`share:{link}`) and of view callers
(`view:{vault}:{document}:{permission}`). -/
namespace Savoire.Access

/-- The parts of a view caller. -/
structure View where
  vaultId : Text
  docId : Text
  permission : Text
  deriving DecidableEq

namespace ShareLinkGuard

def sharePrefix : Text := "share:".toList
def viewPrefix : Text := "view:".toList

def isShareLinkCaller (callerId : Text) : Bool := callerId.startsWith sharePrefix
def isViewCaller (callerId : Text) : Bool := callerId.startsWith viewPrefix

def extractLinkId (callerId : Text) : Text := callerId.drop sharePrefix.length

def parseViewCaller (callerId : Text) : Except Refusal View :=
  match Text.splitAtMost ':' 3 callerId with
  | [view, vaultId, docId, permission] =>
    if view = "view".toList then .ok ⟨vaultId, docId, permission.toLowerInvariant⟩
    else .error (.accessDenied "Token view invalide.")
  | _ => .error (.accessDenied "Token view invalide.")

variable (s : Store) (now : Nat) (callerId vaultId docId attachmentId : Text)

def getValidLinkOrThrow : Except Refusal ShareLink :=
  match ShareLinks.getById s (extractLinkId callerId) with
  | none => .error (.accessDenied "Lien de partage invalide ou expiré.")
  | some link =>
    if link.isValid now then .ok link
    else .error (.accessDenied "Lien de partage invalide ou expiré.")

def requireScope (view : View → Bool) (viewMessage : String) (link : ShareLink → Bool)
    (linkMessage : String) : Except Refusal Unit :=
  if isViewCaller callerId then
    match parseViewCaller callerId with
    | .error e => .error e
    | .ok v => if view v then .ok () else .error (.accessDenied viewMessage)
  else match getValidLinkOrThrow s now callerId with
    | .error e => .error e
    | .ok l => if link l then .ok () else .error (.accessDenied linkMessage)

def requireVaultRead : Except Refusal Unit :=
  requireScope s now callerId
    (fun view => view.vaultId == vaultId)
    "Token view non valide pour ce vault."
    (fun link => link.resourceType == .vault && link.resourceId == vaultId)
    "Lien de partage non valide pour ce vault."

def requireVaultWrite : Except Refusal Unit :=
  requireScope s now callerId
    (fun view => view.vaultId == vaultId && view.permission == "write".toList)
    "Token view sans permission d'écriture sur ce vault."
    (fun link => link.resourceType == .vault && link.resourceId == vaultId && link.allowsWrite now)
    "Lien de partage sans permission d'écriture sur ce vault."

def requireAttachmentRead : Except Refusal Unit :=
  if isViewCaller callerId then requireVaultRead s now callerId vaultId
  else match getValidLinkOrThrow s now callerId with
    | .error e => .error e
    | .ok link =>
      if link.resourceType == .vault && link.resourceId == vaultId then .ok ()
      else if link.resourceType == .document then
        match VaultDocuments.get s attachmentId with
        | some file =>
          if file.vaultId == vaultId && file.parentDocId == some link.resourceId then .ok ()
          else .error (.accessDenied "Lien de partage non valide pour cette piece jointe.")
        | none => .error (.accessDenied "Lien de partage non valide pour cette piece jointe.")
      else .error (.accessDenied "Lien de partage non valide pour cette piece jointe.")

def requireDocumentRead : Except Refusal Unit :=
  requireScope s now callerId
    (fun view => view.vaultId == vaultId && view.docId == docId)
    "Token view non valide pour ce document."
    (fun link => (link.resourceType == .vault && link.resourceId == vaultId) ||
      (link.resourceType == .document && link.resourceId == docId))
    "Lien de partage non valide pour ce document."

def requireDocumentWrite : Except Refusal Unit :=
  requireScope s now callerId
    (fun view => view.vaultId == vaultId && view.docId == docId &&
      view.permission == "write".toList)
    "Token view sans permission d'écriture sur ce document."
    (fun link => (link.resourceType == .vault && link.resourceId == vaultId &&
        link.allowsWrite now) ||
      (link.resourceType == .document && link.resourceId == docId && link.allowsWrite now))
    "Lien de partage sans permission d'écriture sur ce document."

def LiveLink (link : ShareLink) : Prop :=
  ShareLinks.getById s (extractLinkId callerId) = some link ∧ link.isValid now = true

theorem getValidLinkOrThrow_ok (link : ShareLink) :
    getValidLinkOrThrow s now callerId = .ok link ↔ LiveLink s now callerId link := by
  unfold getValidLinkOrThrow LiveLink
  cases ShareLinks.getById s (extractLinkId callerId) with
  | none => simp
  | some l =>
    constructor
    · intro h
      by_cases hv : l.isValid now = true
      · obtain rfl : l = link := by simpa [hv] using h
        exact ⟨rfl, hv⟩
      · simp [hv] at h
    · rintro ⟨h, hv⟩
      obtain rfl : l = link := by simpa using h
      simp [hv]

theorem requireScope_ok (view : View → Bool) (m : String) (link : ShareLink → Bool) (m' : String) :
    requireScope s now callerId view m link m' = .ok () ↔
      (isViewCaller callerId = true ∧ ∃ v, parseViewCaller callerId = .ok v ∧ view v = true) ∨
      (isViewCaller callerId = false ∧ ∃ l, LiveLink s now callerId l ∧ link l = true) := by
  unfold requireScope
  cases isViewCaller callerId with
  | true =>
    cases parseViewCaller callerId with
    | error e => simp
    | ok v => cases view v <;> simp
  | false =>
    simp only [← getValidLinkOrThrow_ok]
    cases getValidLinkOrThrow s now callerId with
    | error e => simp
    | ok l => cases link l <;> simp

theorem requireAttachmentRead_ok :
    requireAttachmentRead s now callerId vaultId attachmentId = .ok () ↔
      requireVaultRead s now callerId vaultId = .ok () ∨
      (isViewCaller callerId = false ∧ ∃ l, LiveLink s now callerId l ∧
        l.resourceType = .document ∧ ∃ file, VaultDocuments.get s attachmentId = some file ∧
          file.vaultId = vaultId ∧ file.parentDocId = some l.resourceId) := by
  unfold requireAttachmentRead requireVaultRead
  rw [requireScope_ok]
  cases hc : isViewCaller callerId with
  | true => simp [requireScope_ok, hc]
  | false =>
    simp only [← getValidLinkOrThrow_ok]
    cases getValidLinkOrThrow s now callerId with
    | error e => simp
    | ok l =>
      cases hr : l.resourceType with
      | vault => by_cases hv : l.resourceId = vaultId <;> simp [hr, hv]
      | document =>
        cases VaultDocuments.get s attachmentId with
        | none => simp [hr]
        | some file =>
          by_cases hf : file.vaultId = vaultId <;>
            by_cases hp : file.parentDocId = some l.resourceId <;> simp [hr, hf, hp]

theorem parseViewCaller_format (v d p : Text) (hv : ':' ∉ v) (hd : ':' ∉ d) :
    parseViewCaller (viewPrefix ++ v ++ ":".toList ++ d ++ ":".toList ++ p) =
      .ok ⟨v, d, p.toLowerInvariant⟩ := by
  have hs : viewPrefix ++ v ++ ":".toList ++ d ++ ":".toList ++ p =
      "view".toList ++ ':' :: (v ++ ':' :: (d ++ ':' :: p)) := by
    simp [viewPrefix]
  rw [hs]
  unfold parseViewCaller
  rw [Text.splitAtMost_append ':' 2 _ _ (by decide), Text.splitAtMost_append ':' 1 v _ hv,
    Text.splitAtMost_append ':' 0 d p hd]
  simp [Text.splitAtMost]

theorem parseViewCaller_parts (callerId : Text) (v : View)
    (h : parseViewCaller callerId = .ok v) : ':' ∉ v.vaultId ∧ ':' ∉ v.docId := by
  unfold parseViewCaller at h
  split at h
  · rename_i view vaultId docId permission hs
    split at h
    · have hp := Text.sep_notMem_of_mem_dropLast ':' 3 callerId
      rw [hs] at hp
      cases h
      exact ⟨hp vaultId (by simp), hp docId (by simp)⟩
    · cases h
  · cases h

end ShareLinkGuard
end Savoire.Access
