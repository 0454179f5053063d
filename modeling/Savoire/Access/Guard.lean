import Savoire.Access.Store

/-! The guard of signed-in accounts: one check for each kind of request, and for each the exact
condition under which it lets the caller through. -/
namespace Savoire.Access
variable (s : Store) (now : Nat) (callerId vaultId docId : Text)

namespace VaultAccessGuard

def requireDocumentInVault : Except Refusal Unit :=
  if VaultDocuments.getVaultId s docId = some vaultId then .ok ()
  else .error (.documentNotInVault vaultId)

def requireRead : Except Refusal Unit :=
  match Vaults.getById s vaultId with
  | none => .error (.vaultNotFound vaultId)
  | some vault =>
    if vault.isOwner callerId then .ok ()
    else match Vaults.getMember s vaultId callerId with
      | none => .error (.vaultNotFound vaultId)
      | some _ => .ok ()

def requireWrite : Except Refusal Unit :=
  match Vaults.getById s vaultId with
  | none => .error (.vaultNotFound vaultId)
  | some vault =>
    if vault.isOwner callerId then .ok ()
    else match Vaults.getMember s vaultId callerId with
      | none => .error (.vaultNotFound vaultId)
      | some member =>
        if member.role = .viewer then
          .error (.accessDenied "Vault viewers cannot modify this vault.")
        else .ok ()

def requireDocumentRead : Except Refusal Unit :=
  match requireDocumentInVault s vaultId docId with
  | .error e => .error e
  | .ok () => match Vaults.getById s vaultId with
    | none => .error (.vaultNotFound vaultId)
    | some vault =>
      if vault.isOwner callerId then .ok ()
      else match Vaults.getMember s vaultId callerId with
        | some _ => .ok ()
        -- not a member: a permission on the document itself
        | none => match Permissions.get s .document docId .user callerId with
          | none => .error (.vaultNotFound vaultId)
          | some perm => if perm.isExpired now then .error (.vaultNotFound vaultId) else .ok ()

def requireDocumentWrite : Except Refusal Unit :=
  match requireDocumentInVault s vaultId docId with
  | .error e => .error e
  | .ok () => match Vaults.getById s vaultId with
    | none => .error (.vaultNotFound vaultId)
    | some vault =>
      if vault.isOwner callerId then .ok ()
      else match Vaults.getMember s vaultId callerId with
        | some member =>
          if member.role = .viewer then
            .error (.accessDenied "Vault viewers cannot modify this document.")
          else .ok ()
        | none => match Permissions.get s .document docId .user callerId with
          | none => .error (.vaultNotFound vaultId)
          | some perm =>
            if perm.isExpired now then .error (.vaultNotFound vaultId)
            else if perm.permission = .read then
              .error (.accessDenied
                "Read-only permission is insufficient to modify this document.")
            else .ok ()

def requireAdmin : Except Refusal Unit :=
  match Vaults.getById s vaultId with
  | none => .error (.vaultNotFound vaultId)
  | some vault =>
    if vault.isOwner callerId then .ok ()
    else match Permissions.get s .vault vaultId .user callerId with
      | none => .error (.accessDenied "Admin permission is required.")
      | some perm =>
        if perm.isExpired now || perm.permission != .admin then
          .error (.accessDenied "Admin permission is required.")
        else .ok ()

end VaultAccessGuard

def Owns : Prop := ∃ vault, Vaults.getById s vaultId = some vault ∧ vault.ownerId = callerId

def IsMember (write : Bool) : Prop :=
  (∃ vault, Vaults.getById s vaultId = some vault) ∧
    ∃ m, Vaults.getMember s vaultId callerId = some m ∧ (write → m.role ≠ .viewer)

def HoldsDocument (write : Bool) : Prop :=
  (∃ vault, Vaults.getById s vaultId = some vault) ∧
    ∃ p, Permissions.get s .document docId .user callerId = some p ∧ p.isExpired now = false ∧
      (write → p.permission ≠ .read)

def HoldsAdmin : Prop :=
  (∃ vault, Vaults.getById s vaultId = some vault) ∧
    ∃ p, Permissions.get s .vault vaultId .user callerId = some p ∧ p.isExpired now = false ∧
      p.permission = .admin

namespace VaultAccessGuard

theorem requireRead_ok :
    requireRead s callerId vaultId = .ok () ↔
      Owns s callerId vaultId ∨ IsMember s callerId vaultId false := by
  unfold requireRead Owns IsMember
  cases Vaults.getById s vaultId with
  | none => simp
  | some vault =>
    by_cases ho : vault.ownerId = callerId <;>
      cases Vaults.getMember s vaultId callerId <;> simp [Vault.isOwner, ho]

theorem requireWrite_ok :
    requireWrite s callerId vaultId = .ok () ↔
      Owns s callerId vaultId ∨ IsMember s callerId vaultId true := by
  unfold requireWrite Owns IsMember
  cases Vaults.getById s vaultId with
  | none => simp
  | some vault =>
    by_cases ho : vault.ownerId = callerId <;>
      cases Vaults.getMember s vaultId callerId <;> simp [Vault.isOwner, ho]

theorem requireDocumentRead_ok :
    requireDocumentRead s now callerId vaultId docId = .ok () ↔
      VaultDocuments.getVaultId s docId = some vaultId ∧
        (Owns s callerId vaultId ∨ IsMember s callerId vaultId false ∨
          HoldsDocument s now callerId vaultId docId false) := by
  unfold requireDocumentRead requireDocumentInVault Owns IsMember HoldsDocument
  by_cases hd : VaultDocuments.getVaultId s docId = some vaultId
  · cases Vaults.getById s vaultId with
    | none => simp [hd]
    | some vault =>
      by_cases ho : vault.ownerId = callerId
      · simp [hd, Vault.isOwner, ho]
      · cases Vaults.getMember s vaultId callerId with
        | some m => simp [hd, Vault.isOwner, ho]
        | none => cases Permissions.get s .document docId .user callerId <;>
            simp [hd, Vault.isOwner, ho]
  · simp [hd]

theorem requireDocumentWrite_ok :
    requireDocumentWrite s now callerId vaultId docId = .ok () ↔
      VaultDocuments.getVaultId s docId = some vaultId ∧
        (Owns s callerId vaultId ∨ IsMember s callerId vaultId true ∨
          (Vaults.getMember s vaultId callerId = none ∧
            HoldsDocument s now callerId vaultId docId true)) := by
  unfold requireDocumentWrite requireDocumentInVault Owns IsMember HoldsDocument
  by_cases hd : VaultDocuments.getVaultId s docId = some vaultId
  · cases Vaults.getById s vaultId with
    | none => simp [hd]
    | some vault =>
      by_cases ho : vault.ownerId = callerId
      · simp [hd, Vault.isOwner, ho]
      · cases Vaults.getMember s vaultId callerId with
        | some m => simp [hd, Vault.isOwner, ho]
        | none => cases Permissions.get s .document docId .user callerId with
          | none => simp [hd, Vault.isOwner, ho]
          | some p => cases hx : p.isExpired now <;> simp [hd, Vault.isOwner, ho, hx]
  · simp [hd]

theorem requireAdmin_ok :
    requireAdmin s now callerId vaultId = .ok () ↔
      Owns s callerId vaultId ∨ HoldsAdmin s now callerId vaultId := by
  unfold requireAdmin Owns HoldsAdmin
  cases Vaults.getById s vaultId with
  | none => simp
  | some vault =>
    by_cases ho : vault.ownerId = callerId
    · simp [Vault.isOwner, ho]
    · cases Permissions.get s .vault vaultId .user callerId with
      | none => simp [Vault.isOwner, ho]
      | some p => cases hx : p.isExpired now <;> simp [Vault.isOwner, ho, hx]

end VaultAccessGuard
end Savoire.Access
