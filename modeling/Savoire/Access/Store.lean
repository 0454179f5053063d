import Mathlib.Data.List.Nodup
import Savoire.Text

/-! Vaults, members, permissions, share links and the document registry of the server, with the
repository reads and writes that the access checks use. Instants are ticks. -/
namespace Savoire.Access

inductive Permission
  | read | write | admin
  deriving DecidableEq

inductive ResourceType
  | vault | document
  deriving DecidableEq

inductive SubjectType
  | user
  deriving DecidableEq

inductive VaultRole
  | owner | editor | viewer
  deriving DecidableEq

/-- The exceptions that end a request. -/
inductive Refusal
  | vaultNotFound (vaultId : Text)
  | documentNotInVault (vaultId : Text)
  | accessDenied (detail : String)
  | pathConflict (path : String)
  | argument (message : String)
  deriving DecidableEq

def Permission.parse (s : Text) : Except Refusal Permission :=
  if s = "read".toList then .ok .read
  else if s = "write".toList then .ok .write
  else if s = "admin".toList then .ok .admin
  else .error (.argument ("Unknown Permission: '" ++ String.ofList s ++ "'"))

def ResourceType.parse (s : Text) : Except Refusal ResourceType :=
  if s = "vault".toList then .ok .vault
  else if s = "document".toList then .ok .document
  else .error (.argument ("Unknown ResourceType: '" ++ String.ofList s ++ "'"))

def VaultRole.parse (s : Text) : Except Refusal VaultRole :=
  if s = "owner".toList then .ok .owner
  else if s = "editor".toList then .ok .editor
  else if s = "viewer".toList then .ok .viewer
  else .error (.argument ("Unknown VaultRole: '" ++ String.ofList s ++ "'"))

structure Vault where
  id : Text
  ownerId : Text
  deriving DecidableEq

def Vault.isOwner (v : Vault) (userId : Text) : Bool := v.ownerId == userId

def Vault.requireOwner (v : Vault) (callerId : Text) : Except Refusal Unit :=
  if v.isOwner callerId then .ok ()
  else .error (.accessDenied "Cette opération est réservée à l'owner du vault.")

structure VaultMember where
  vaultId : Text
  userId : Text
  role : VaultRole
  joinedAt : Nat
  deriving DecidableEq

structure ResourcePermission where
  id : Text
  resourceType : ResourceType
  resourceId : Text
  subjectType : SubjectType
  subjectId : Text
  permission : Permission
  grantedBy : Text
  grantedAt : Nat
  expiresAt : Option Nat
  deriving DecidableEq

/-- The unique index of the permission rows. -/
def ResourcePermission.key (p : ResourcePermission) :
    ResourceType × Text × SubjectType × Text :=
  (p.resourceType, p.resourceId, p.subjectType, p.subjectId)

def ResourcePermission.isExpired (p : ResourcePermission) (now : Nat) : Bool :=
  match p.expiresAt with
  | none => false
  | some t => t < now

structure ShareLink where
  id : Text
  token : Text
  resourceType : ResourceType
  resourceId : Text
  permission : Permission
  expiresAt : Option Nat
  revokedAt : Option Nat
  deriving DecidableEq

def ShareLink.isValid (l : ShareLink) (now : Nat) : Bool :=
  l.revokedAt.isNone && match l.expiresAt with
    | none => true
    | some t => now < t

def ShareLink.allowsWrite (l : ShareLink) (now : Nat) : Bool :=
  l.permission == .write && l.isValid now

structure VaultDocument where
  docId : Text
  vaultId : Text
  parentDocId : Option Text
  deriving DecidableEq

/-- The tables, with the two keys that the checks rely on. -/
structure Store where
  vaults : List Vault
  members : List VaultMember
  permissions : List ResourcePermission
  shareLinks : List ShareLink
  vaultDocuments : List VaultDocument
  users : List Text
  permissionKeys : (permissions.map ResourcePermission.key).Nodup
  linkIds : (shareLinks.map ShareLink.id).Nodup

theorem nodup_no_permissions : (([] : List ResourcePermission).map ResourcePermission.key).Nodup := List.nodup_nil

theorem nodup_no_links : (([] : List ShareLink).map ShareLink.id).Nodup := List.nodup_nil

def AnnexDocuments.parentOf (docId : Text) : Option Text :=
  let i := docId.idxOf '~'
  if 0 < i ∧ i + 1 < docId.length then some (docId.take i) else none

def Vaults.getById (s : Store) (vaultId : Text) : Option Vault :=
  s.vaults.find? (fun v => v.id == vaultId)

def Vaults.getMember (s : Store) (vaultId userId : Text) : Option VaultMember :=
  s.members.find? (fun m => m.vaultId == vaultId && m.userId == userId)

def Permissions.get (s : Store) (resourceType : ResourceType) (resourceId : Text)
    (subjectType : SubjectType) (subjectId : Text) : Option ResourcePermission :=
  s.permissions.find? (fun p => p.key == (resourceType, resourceId, subjectType, subjectId))

def ShareLinks.getById (s : Store) (id : Text) : Option ShareLink :=
  s.shareLinks.find? (fun l => l.id == id)

def ShareLinks.getByToken (s : Store) (token : Text) : Option ShareLink :=
  s.shareLinks.find? (fun l => l.token == token)

def VaultDocuments.get (s : Store) (docId : Text) : Option VaultDocument :=
  s.vaultDocuments.find? (fun d => d.docId == docId)

def VaultDocuments.getVaultId (s : Store) (docId : Text) : Option Text :=
  match VaultDocuments.get s docId with
  | some d => some d.vaultId
  | none => match AnnexDocuments.parentOf docId with
    | some parent => (VaultDocuments.get s parent).map (·.vaultId)
    | none => none

def Vaults.addMember (s : Store) (member : VaultMember) : Store :=
  match Vaults.getMember s member.vaultId member.userId with
  | some _ => { s with members := s.members.map fun m =>
      if m.vaultId == member.vaultId && m.userId == member.userId then member else m }
  | none => { s with members := s.members ++ [member] }

def Vaults.removeMember (s : Store) (vaultId userId : Text) : Store :=
  { s with members := s.members.filter fun m => !(m.vaultId == vaultId && m.userId == userId) }

def Permissions.delete (s : Store) (id : Text) : Store :=
  { s with
    permissions := s.permissions.filter fun p => !(p.id == id)
    permissionKeys := (List.filter_sublist.map _).nodup s.permissionKeys }

/-- Adds a row; the unique index refuses a second one for the same subject and resource. -/
def Permissions.add (s : Store) (p : ResourcePermission) : Except Refusal Store :=
  if h : p.key ∈ s.permissions.map ResourcePermission.key then
    .error (.argument "IX_resource_permissions")
  else .ok { s with
    permissions := s.permissions ++ [p]
    permissionKeys := by
      simpa [List.nodup_append, s.permissionKeys] using fun a ha he => h (by simpa using ⟨a, ha, he⟩) }

theorem Permissions.get_mem {s : Store} {rt : ResourceType} {r : Text} {st : SubjectType}
    {u : Text} {p : ResourcePermission} (h : Permissions.get s rt r st u = some p) :
    p ∈ s.permissions ∧ p.key = (rt, r, st, u) :=
  ⟨List.mem_of_find?_eq_some h, by simpa using List.find?_some h⟩

theorem ShareLinks.getById_of_mem {s : Store} {l : ShareLink} (h : l ∈ s.shareLinks) :
    ShareLinks.getById s l.id = some l := by
  cases hf : ShareLinks.getById s l.id with
  | none =>
    have := List.find?_eq_none.1 hf l h
    simp at this
  | some l' =>
    have hid : l'.id = l.id := by simpa using List.find?_some hf
    have hmem : l' ∈ s.shareLinks := List.mem_of_find?_eq_some hf
    rw [List.inj_on_of_nodup_map s.linkIds hmem h hid]

end Savoire.Access
