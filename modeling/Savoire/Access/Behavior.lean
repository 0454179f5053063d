import Savoire.Access.Guard
import Savoire.Access.ShareLink

/-! The pipeline behaviour that checks every request before its handler, and what a document
request that passes it says about the document. -/
namespace Savoire.Access
open ShareLinkGuard

inductive VaultAccessLevel
  | read | write | admin
  deriving DecidableEq

/-- A request as the behaviour sees it: `IRequiresVaultAccess`, with the attachment of an
`IRequiresAttachmentAccess`, or `IRequiresDocumentAccess`. -/
inductive Request
  | vault (vaultId : Text) (requiredAccess : VaultAccessLevel) (attachmentId : Option Text)
  | document (vaultId docId : Text) (requiredAccess : VaultAccessLevel)

namespace VaultAccessBehavior
variable (s : Store) (now : Nat) (callerId vaultId docId : Text) (requiredAccess : VaultAccessLevel)

def isLinkCaller : Bool := isShareLinkCaller callerId || isViewCaller callerId

def checkVault (attachmentId : Option Text) : Except Refusal Unit :=
  if isLinkCaller callerId then
    match requiredAccess with
    | .write => ShareLinkGuard.requireVaultWrite s now callerId vaultId
    | .admin =>
      .error (.accessDenied "Un lien de partage ne donne jamais l'administration d'un vault.")
    | .read => match attachmentId with
      | some attachmentId =>
        ShareLinkGuard.requireAttachmentRead s now callerId vaultId attachmentId
      | none => ShareLinkGuard.requireVaultRead s now callerId vaultId
  else match requiredAccess with
    | .write => VaultAccessGuard.requireWrite s callerId vaultId
    | .admin => VaultAccessGuard.requireAdmin s now callerId vaultId
    | .read => VaultAccessGuard.requireRead s callerId vaultId

def checkDocument : Except Refusal Unit :=
  if isLinkCaller callerId then
    if requiredAccess = .write then
      ShareLinkGuard.requireDocumentWrite s now callerId vaultId docId
    else ShareLinkGuard.requireDocumentRead s now callerId vaultId docId
  else
    if requiredAccess = .write then
      VaultAccessGuard.requireDocumentWrite s now callerId vaultId docId
    else VaultAccessGuard.requireDocumentRead s now callerId vaultId docId

def check : Request → Except Refusal Unit
  | .vault vaultId requiredAccess attachmentId =>
    checkVault s now callerId vaultId requiredAccess attachmentId
  | .document vaultId docId requiredAccess =>
    checkDocument s now callerId vaultId docId requiredAccess

end VaultAccessBehavior
open VaultAccessBehavior

def Registered (s : Store) (docId vaultId : Text) : Prop :=
  VaultDocuments.getVaultId s docId = some vaultId

/-- What gives a caller authority over a document itself, whatever vault he announces. -/
inductive Covers (s : Store) (now : Nat) (callerId docId : Text) (write : Bool) : Prop
  | owner (v : Text) : isLinkCaller callerId = false → Registered s docId v →
      Owns s callerId v → Covers s now callerId docId write
  | member (v : Text) : isLinkCaller callerId = false → Registered s docId v →
      IsMember s callerId v write → Covers s now callerId docId write
  | permission (v : Text) : isLinkCaller callerId = false → Registered s docId v →
      HoldsDocument s now callerId v docId write → Covers s now callerId docId write
  | vaultLink (link : ShareLink) : isViewCaller callerId = false → LiveLink s now callerId link →
      link.resourceType = .vault → Registered s docId link.resourceId →
      (write → link.permission = .write) → Covers s now callerId docId write
  | documentLink (link : ShareLink) : isViewCaller callerId = false →
      LiveLink s now callerId link → link.resourceType = .document → link.resourceId = docId →
      (write → link.permission = .write) → Covers s now callerId docId write
  | viewGrant (view : View) : isViewCaller callerId = true → parseViewCaller callerId = .ok view →
      view.docId = docId → (write → view.permission = "write".toList) →
      Covers s now callerId docId write

section
variable (s : Store) (now : Nat) (callerId vaultId docId : Text) (level : VaultAccessLevel)

theorem checkDocument_account (hc : isLinkCaller callerId = false)
    (h : checkDocument s now callerId vaultId docId level = .ok ()) :
    Registered s docId vaultId ∧ (Owns s callerId vaultId ∨
      IsMember s callerId vaultId (level == .write) ∨
      HoldsDocument s now callerId vaultId docId (level == .write)) := by
  simp only [checkDocument, hc, Bool.false_eq_true, if_false] at h
  by_cases hw : level = .write
  · rw [if_pos hw, VaultAccessGuard.requireDocumentWrite_ok] at h
    obtain ⟨hr, ho | hm | ⟨-, hp⟩⟩ := h
    · exact ⟨hr, .inl ho⟩
    · exact ⟨hr, .inr (.inl (by simpa [hw] using hm))⟩
    · exact ⟨hr, .inr (.inr (by simpa [hw] using hp))⟩
  · rw [if_neg hw, VaultAccessGuard.requireDocumentRead_ok] at h
    have hb : (level == VaultAccessLevel.write) = false := by simpa using hw
    rw [hb]
    exact h

theorem checkDocument_link (hc : isLinkCaller callerId = true)
    (h : checkDocument s now callerId vaultId docId level = .ok ()) :
    (isViewCaller callerId = true ∧ ∃ view, parseViewCaller callerId = .ok view ∧
      view.vaultId = vaultId ∧ view.docId = docId ∧
      (level = .write → view.permission = "write".toList)) ∨
    (isViewCaller callerId = false ∧ ∃ link, LiveLink s now callerId link ∧
      ((link.resourceType = .vault ∧ link.resourceId = vaultId) ∨
        (link.resourceType = .document ∧ link.resourceId = docId)) ∧
      (level = .write → link.permission = .write)) := by
  simp only [checkDocument, hc, if_true] at h
  by_cases hw : level = .write
  · rw [if_pos hw, requireDocumentWrite, requireScope_ok] at h
    rcases h with ⟨hview, view, hparse, hok⟩ | ⟨hview, link, hlive, hok⟩
    · simp only [Bool.and_eq_true, beq_iff_eq] at hok
      exact .inl ⟨hview, view, hparse, hok.1.1, hok.1.2, fun _ => hok.2⟩
    · simp only [Bool.or_eq_true, Bool.and_eq_true, beq_iff_eq, ShareLink.allowsWrite] at hok
      refine .inr ⟨hview, link, hlive, ?_, fun _ => ?_⟩
      · exact hok.imp (·.1) (·.1)
      · exact hok.elim (·.2.1) (·.2.1)
  · rw [if_neg hw, requireDocumentRead, requireScope_ok] at h
    rcases h with ⟨hview, view, hparse, hok⟩ | ⟨hview, link, hlive, hok⟩
    · simp only [Bool.and_eq_true, beq_iff_eq] at hok
      exact .inl ⟨hview, view, hparse, hok.1, hok.2, fun he => absurd he hw⟩
    · simp only [Bool.or_eq_true, Bool.and_eq_true, beq_iff_eq] at hok
      exact .inr ⟨hview, link, hlive, hok, fun he => absurd he hw⟩

/-- A document request that passes concerns a document of the announced vault, under an authority
that covers it, exactly when the caller is an account or the registry confirms the vault. -/
theorem document_request_confined_iff
    (h : checkDocument s now callerId vaultId docId level = .ok ()) :
    (Registered s docId vaultId ∧ Covers s now callerId docId (level == .write)) ↔
      (isLinkCaller callerId = false ∨ Registered s docId vaultId) := by
  refine ⟨fun hp => .inr hp.1, fun hq => ?_⟩
  cases hc : isLinkCaller callerId with
  | false =>
    obtain ⟨hr, ho | hm | hp⟩ := checkDocument_account s now callerId vaultId docId level hc h
    · exact ⟨hr, .owner vaultId hc hr ho⟩
    · exact ⟨hr, .member vaultId hc hr hm⟩
    · exact ⟨hr, .permission vaultId hc hr hp⟩
  | true =>
    have hr : Registered s docId vaultId := hq.resolve_left (by simp [hc])
    refine ⟨hr, ?_⟩
    rcases checkDocument_link s now callerId vaultId docId level hc h with
      ⟨hview, view, hparse, -, hd, hw⟩ | ⟨hview, link, hlive, ht | ht, hw⟩
    · exact .viewGrant view hview hparse hd (by simpa using hw)
    · exact .vaultLink link hview hlive ht.1 (ht.2 ▸ hr) (by simpa using hw)
    · exact .documentLink link hview hlive ht.1 ht.2 (by simpa using hw)

end

def twoVaults : Store where
  vaults := [⟨"v".toList, "ann".toList⟩, ⟨"w".toList, "bob".toList⟩]
  members := []
  permissions := []
  shareLinks := [⟨"l".toList, "t".toList, .vault, "v".toList, .write, none, none⟩]
  vaultDocuments := [⟨"c".toList, "v".toList, none⟩, ⟨"d".toList, "w".toList, none⟩]
  users := ["ann".toList, "bob".toList]
  permissionKeys := nodup_no_permissions
  linkIds := by simp

/-- The link of the first vault, announced with it, opens a document of the second. -/
theorem document_request_escapes_vault :
    ¬ ∀ (s : Store) (now : Nat) (callerId vaultId docId : Text) (level : VaultAccessLevel),
      checkDocument s now callerId vaultId docId level = .ok () →
        Registered s docId vaultId ∧ Covers s now callerId docId (level == .write) := by
  intro h
  obtain ⟨hr, -⟩ := h twoVaults 0 "share:l".toList "v".toList "d".toList .write (by rfl)
  exact absurd hr (by unfold Registered; decide)

theorem document_request_confined_own :
    checkDocument twoVaults 0 "share:l".toList "v".toList "c".toList .write = .ok () ∧
      Registered twoVaults "c".toList "v".toList ∧
      Covers twoVaults 0 "share:l".toList "c".toList true := by
  have h : checkDocument twoVaults 0 "share:l".toList "v".toList "c".toList .write = .ok () := by
    rfl
  have hr : Registered twoVaults "c".toList "v".toList := by unfold Registered; decide
  exact ⟨h, (document_request_confined_iff twoVaults 0 _ _ _ .write h).2 (.inr hr)⟩

theorem requireScope_mono {s : Store} {now : Nat} {callerId : Text} {view view' : View → Bool}
    {link link' : ShareLink → Bool} {m n m' n' : String} (hview : ∀ v, view v = true → view' v = true)
    (hlink : ∀ l, link l = true → link' l = true) (h : requireScope s now callerId view m link n = .ok ()) :
    requireScope s now callerId view' m' link' n' = .ok () := by
  rw [requireScope_ok] at h ⊢
  exact h.imp (.imp_right fun ⟨v, hp, hv⟩ => ⟨v, hp, hview v hv⟩) (.imp_right fun ⟨l, hl, hv⟩ => ⟨l, hl, hlink l hv⟩)

/-- Whoever may write to a vault or to a document may read it, be it an account, a share link or a view grant. -/
theorem writing_reads (s : Store) (now : Nat) (callerId vaultId : Text) :
    (∀ attachmentId, check s now callerId (.vault vaultId .write attachmentId) = .ok () →
      check s now callerId (.vault vaultId .read attachmentId) = .ok ()) ∧
    ∀ docId, check s now callerId (.document vaultId docId .write) = .ok () →
      check s now callerId (.document vaultId docId .read) = .ok () := by
  refine ⟨fun attachmentId h => ?_, fun docId h => ?_⟩
  · simp only [check, checkVault] at h ⊢
    split at h
    · rename_i hc
      have hread : requireVaultRead s now callerId vaultId = .ok () := by
        refine requireScope_mono (fun v hv => ?_) (fun l hl => ?_) h <;> simp_all
      rw [if_pos hc]
      cases attachmentId with
      | none => exact hread
      | some a => exact (requireAttachmentRead_ok ..).2 (.inl hread)
    · rename_i hc
      rw [if_neg hc, VaultAccessGuard.requireRead_ok]
      exact ((VaultAccessGuard.requireWrite_ok ..).1 h).imp_right fun ⟨hv, m, hm, _⟩ => ⟨hv, m, hm, nofun⟩
  · simp only [check, checkDocument, if_true, reduceCtorEq, if_false] at h ⊢
    split at h
    · rename_i hc
      rw [if_pos hc]
      refine requireScope_mono (fun v hv => ?_) (fun l hl => ?_) h
      · simp_all
      · simp only [Bool.or_eq_true, Bool.and_eq_true] at hl ⊢
        exact hl.imp And.left And.left
    · rename_i hc
      rw [if_neg hc, VaultAccessGuard.requireDocumentRead_ok]
      obtain ⟨hdoc, h⟩ := (VaultAccessGuard.requireDocumentWrite_ok ..).1 h
      refine ⟨hdoc, h.imp_right (.imp (fun ⟨hv, m, hm, _⟩ => ⟨hv, m, hm, nofun⟩) ?_)⟩
      exact fun ⟨_, hv, p, hp, hx, _⟩ => ⟨hv, p, hp, hx, nofun⟩

end Savoire.Access
