import Savoire.Access.Guard
import Savoire.Library.Transition

/-! The commands that write the member list and the permission rows of a vault, and the rights
that remain to a user who is no member. -/
namespace Savoire.Access
open Transition

namespace GrantPermission

def requireShareRight (s : Store) (now : Nat) (callerId : Text) (resourceType : ResourceType)
    (resourceId : Text) : Except Refusal Unit :=
  let vaultId := match resourceType with
    | .document => VaultDocuments.getVaultId s resourceId
    | .vault => some resourceId
  match vaultId with
  | none => .error (.accessDenied "Document inconnu : il n'appartient a aucun vault.")
  | some vaultId => match Vaults.getById s vaultId with
    | none => .error (.vaultNotFound vaultId)
    | some vault =>
      if vault.isOwner callerId then .ok ()
      else match Permissions.get s .vault vaultId .user callerId with
        | some acl =>
          if acl.permission = .admin ∧ acl.isExpired now = false then .ok ()
          else .error
            (.accessDenied "Seul l'owner ou un admin peut partager cette ressource.")
        | none => .error
            (.accessDenied "Seul l'owner ou un admin peut partager cette ressource.")

structure Command where
  callerId : Text
  resourceType : Text
  resourceId : Text
  targetUserId : Text
  permission : Text
  expiresAt : Option Nat

def row (now : Nat) (newId : Text) (cmd : Command) (resourceType : ResourceType)
    (permission : Permission) : ResourcePermission where
  id := newId
  resourceType := resourceType
  resourceId := cmd.resourceId
  subjectType := .user
  subjectId := cmd.targetUserId
  permission := permission
  grantedBy := cmd.callerId
  grantedAt := now
  expiresAt := cmd.expiresAt

def handle (s : Store) (now : Nat) (newId : Text) (cmd : Command) : Except Refusal Store :=
  match ResourceType.parse cmd.resourceType, Permission.parse cmd.permission with
  | .error e, _ => .error e
  | _, .error e => .error e
  | .ok resourceType, .ok permission =>
    match requireShareRight s now cmd.callerId resourceType cmd.resourceId with
    | .error e => .error e
    | .ok () =>
      let s := match Permissions.get s resourceType cmd.resourceId .user cmd.targetUserId with
        | some existing => Permissions.delete s existing.id
        | none => s
      match Permissions.add s (row now newId cmd resourceType permission) with
      | .error e => .error e
      | .ok s => match resourceType with
        | .vault =>
          let role := if permission = .read then VaultRole.viewer else .editor
          .ok (Vaults.addMember s ⟨cmd.resourceId, cmd.targetUserId, role, now⟩)
        | .document => .ok s

end GrantPermission

namespace RevokePermission

structure Command where
  callerId : Text
  resourceType : Text
  resourceId : Text
  targetUserId : Text

def handle (s : Store) (now : Nat) (cmd : Command) : Except Refusal Store :=
  match ResourceType.parse cmd.resourceType with
  | .error e => .error e
  | .ok resourceType =>
    match GrantPermission.requireShareRight s now cmd.callerId resourceType cmd.resourceId with
    | .error e => .error e
    | .ok () =>
      match Permissions.get s resourceType cmd.resourceId .user cmd.targetUserId with
      | none => .error (.accessDenied ("Aucune permission trouvee pour " ++
          String.ofList cmd.targetUserId ++ " sur " ++ String.ofList cmd.resourceType ++ "/" ++
          String.ofList cmd.resourceId ++ "."))
      | some perm =>
        let s := Permissions.delete s perm.id
        match resourceType with
        | .vault => .ok (Vaults.removeMember s cmd.resourceId cmd.targetUserId)
        | .document => .ok s

end RevokePermission

namespace AddVaultMember

structure Command where
  callerId : Text
  vaultId : Text
  memberId : Text
  role : Text

def handle (s : Store) (now : Nat) (cmd : Command) : Except Refusal Store :=
  match Vaults.getById s cmd.vaultId with
  | none => .error (.vaultNotFound cmd.vaultId)
  | some vault => match vault.requireOwner cmd.callerId with
    | .error e => .error e
    | .ok () =>
      if cmd.memberId ∉ s.users then
        .error (.accessDenied ("Utilisateur inconnu : " ++ String.ofList cmd.memberId))
      else if vault.isOwner cmd.memberId ||
          (Vaults.getMember s cmd.vaultId cmd.memberId).isSome then
        .error (.pathConflict ("L'utilisateur '" ++ String.ofList cmd.memberId ++
          "' est déjà membre de ce vault."))
      else match VaultRole.parse cmd.role with
        | .error e => .error e
        | .ok role => .ok (Vaults.addMember s ⟨cmd.vaultId, cmd.memberId, role, now⟩)

end AddVaultMember

namespace RemoveVaultMember

structure Command where
  callerId : Text
  vaultId : Text
  memberId : Text

def handle (s : Store) (cmd : Command) : Except Refusal Store :=
  match Vaults.getById s cmd.vaultId with
  | none => .error (.vaultNotFound cmd.vaultId)
  | some vault => match vault.requireOwner cmd.callerId with
    | .error e => .error e
    | .ok () =>
      if vault.isOwner cmd.memberId then
        .error (.accessDenied "Impossible de retirer l'owner d'un vault.")
      else .ok (Vaults.removeMember s cmd.vaultId cmd.memberId)

end RemoveVaultMember

/-- A command with the instant at which it is handled. -/
inductive Command
  | add (now : Nat) (cmd : AddVaultMember.Command)
  | remove (cmd : RemoveVaultMember.Command)
  | grant (now : Nat) (newId : Text) (cmd : GrantPermission.Command)
  | revoke (now : Nat) (cmd : RevokePermission.Command)

def handle (s : Store) : Command → Except Refusal Store
  | .add now cmd => AddVaultMember.handle s now cmd
  | .remove cmd => RemoveVaultMember.handle s cmd
  | .grant now newId cmd => GrantPermission.handle s now newId cmd
  | .revoke now cmd => RevokePermission.handle s now cmd

/-- A refused command leaves the tables as they are. -/
def step (s : Store) (c : Command) : Option Store :=
  match handle s c with
  | .ok s' => some s'
  | .error _ => some s

def Member (s : Store) (vaultId userId : Text) : Prop :=
  ∃ m ∈ s.members, m.vaultId = vaultId ∧ m.userId = userId

def HasRow (s : Store) (vaultId userId : Text) : Prop :=
  ∃ p ∈ s.permissions, p.key = (.vault, vaultId, .user, userId)

def Aligned (vaultId : Text) (s : Store) : Prop :=
  ∀ u, HasRow s vaultId u → Member s vaultId u

/-- A vault that has just been created: nobody has joined it, nothing is granted on it. -/
structure Fresh (s : Store) (vaultId : Text) : Prop where
  created : ∃ vault, Vaults.getById s vaultId = some vault
  noMember : ∀ u, ¬ Member s vaultId u
  noRow : ∀ u, ¬ HasRow s vaultId u

section
variable (s : Store) (vaultId userId : Text)

instance : Decidable (Member s vaultId userId) := by unfold Member; infer_instance
instance : Decidable (HasRow s vaultId userId) := by unfold HasRow; infer_instance

instance : Decidable (Owns s userId vaultId) :=
  decidable_of_iff (((Vaults.getById s vaultId).any fun v => v.ownerId == userId) = true)
    (by simp [Owns, Option.any_eq_true])

theorem member_addMember (m : VaultMember) :
    Member (Vaults.addMember s m) vaultId userId ↔
      (m.vaultId = vaultId ∧ m.userId = userId) ∨ Member s vaultId userId := by
  unfold Vaults.addMember Member
  cases hg : Vaults.getMember s m.vaultId m.userId with
  | none =>
    constructor
    · rintro ⟨x, hx, hk⟩
      rcases List.mem_append.1 hx with hx | hx
      · exact .inr ⟨x, hx, hk⟩
      · obtain rfl : x = m := by simpa using hx
        exact .inl hk
    · rintro (hk | ⟨x, hx, hk⟩)
      · exact ⟨m, by simp, hk⟩
      · exact ⟨x, List.mem_append_left _ hx, hk⟩
  | some old =>
    have hold : old ∈ s.members := List.mem_of_find?_eq_some hg
    have hkey : old.vaultId = m.vaultId ∧ old.userId = m.userId := by
      simpa using List.find?_some hg
    simp only [List.mem_map]
    constructor
    · rintro ⟨x, ⟨y, hy, rfl⟩, hk⟩
      split at hk
      · exact .inl hk
      · exact .inr ⟨y, hy, hk⟩
    · rintro (hk | ⟨x, hx, hk⟩)
      · exact ⟨m, ⟨old, hold, by simp [hkey]⟩, hk⟩
      · by_cases hm : x.vaultId = m.vaultId ∧ x.userId = m.userId
        · exact ⟨m, ⟨x, hx, by simp [hm]⟩, hm.1 ▸ hk.1, hm.2 ▸ hk.2⟩
        · refine ⟨x, ⟨x, hx, ?_⟩, hk⟩
          simp only [Bool.and_eq_true, beq_iff_eq, if_neg hm]

theorem member_removeMember (v u : Text) :
    Member (Vaults.removeMember s v u) vaultId userId ↔
      Member s vaultId userId ∧ ¬ (vaultId = v ∧ userId = u) := by
  unfold Vaults.removeMember Member
  simp only [List.mem_filter, Bool.not_eq_true', Bool.and_eq_false_imp, beq_iff_eq, beq_eq_false_iff_ne]
  constructor
  · rintro ⟨m, ⟨hm, hne⟩, rfl, rfl⟩
    exact ⟨⟨m, hm, rfl, rfl⟩, fun h => hne h.1 h.2⟩
  · rintro ⟨⟨m, hm, rfl, rfl⟩, hne⟩
    exact ⟨m, ⟨hm, fun hv hu => hne ⟨hv, hu⟩⟩, rfl, rfl⟩

theorem hasRow_delete (id : Text) (h : HasRow (Permissions.delete s id) vaultId userId) :
    HasRow s vaultId userId := by
  obtain ⟨p, hp, hk⟩ := h
  exact ⟨p, List.mem_of_mem_filter hp, hk⟩

theorem not_hasRow_delete (p : ResourcePermission)
    (h : Permissions.get s .vault vaultId .user userId = some p) :
    ¬ HasRow (Permissions.delete s p.id) vaultId userId := by
  rintro ⟨q, hq, hk⟩
  obtain ⟨hp, hpk⟩ := Permissions.get_mem h
  obtain ⟨hqs, hne⟩ := List.mem_filter.1 hq
  obtain rfl : q = p := List.inj_on_of_nodup_map s.permissionKeys hqs hp (hk.trans hpk.symm)
  simp at hne

theorem hasRow_add (s' : Store) (p : ResourcePermission) (h : Permissions.add s p = .ok s') :
    s'.members = s.members ∧ s'.vaults = s.vaults ∧ (HasRow s' vaultId userId ↔
      p.key = (.vault, vaultId, .user, userId) ∨ HasRow s vaultId userId) := by
  unfold Permissions.add at h
  split at h
  · cases h
  · cases h
    refine ⟨rfl, rfl, ?_⟩
    simp only [HasRow, List.mem_append, List.mem_singleton, or_and_right, exists_or,
      exists_eq_left]
    exact or_comm

end

/-- A removal that goes through concerns a user without a permission row on the vault. -/
def RemovalClean (vaultId : Text) (s : Store) : Command → Prop
  | .remove cmd => cmd.vaultId = vaultId → Owns s cmd.callerId vaultId →
      ¬ Owns s cmd.memberId vaultId → ¬ HasRow s vaultId cmd.memberId
  | _ => True

instance (vaultId : Text) (s : Store) : (c : Command) → Decidable (RemovalClean vaultId s c)
  | .remove _ => by unfold RemovalClean; infer_instance
  | .add .. | .grant .. | .revoke .. => isTrue trivial

section
variable {s s' : Store}

theorem removeVaultMember_ok (cmd : RemoveVaultMember.Command) :
    RemoveVaultMember.handle s cmd = .ok s' ↔
      Owns s cmd.callerId cmd.vaultId ∧ ¬ Owns s cmd.memberId cmd.vaultId ∧
        Vaults.removeMember s cmd.vaultId cmd.memberId = s' := by
  obtain ⟨callerId, vaultId, memberId⟩ := cmd
  unfold RemoveVaultMember.handle Owns
  cases Vaults.getById s vaultId with
  | none => simp
  | some vault =>
    by_cases hc : vault.ownerId = callerId
    · subst hc
      by_cases hm : vault.ownerId = memberId <;> simp [Vault.requireOwner, Vault.isOwner, hm]
    · simp [Vault.requireOwner, Vault.isOwner, hc]

theorem addVaultMember_ok (now : Nat) (cmd : AddVaultMember.Command)
    (h : AddVaultMember.handle s now cmd = .ok s') :
    Owns s cmd.callerId cmd.vaultId ∧ ∃ role, s' = Vaults.addMember s ⟨cmd.vaultId, cmd.memberId, role, now⟩ := by
  unfold AddVaultMember.handle at h
  split at h
  · cases h
  · rename_i vault hvault
    split at h
    · cases h
    · rename_i howner
      split at h
      · cases h
      · split at h
        · cases h
        · split at h
          · cases h
          · cases h
            refine ⟨⟨vault, hvault, ?_⟩, _, rfl⟩
            simpa [Vault.requireOwner, Vault.isOwner] using howner

theorem revokePermission_ok (now : Nat) (cmd : RevokePermission.Command)
    (h : RevokePermission.handle s now cmd = .ok s') :
    ∃ resourceType perm,
      Permissions.get s resourceType cmd.resourceId .user cmd.targetUserId = some perm ∧
      s' = match resourceType with
        | .vault => Vaults.removeMember (Permissions.delete s perm.id) cmd.resourceId
            cmd.targetUserId
        | .document => Permissions.delete s perm.id := by
  unfold RevokePermission.handle at h
  split at h
  · cases h
  · rename_i resourceType _
    split at h
    · cases h
    · split at h
      · cases h
      · rename_i perm hperm
        refine ⟨resourceType, perm, hperm, ?_⟩
        cases resourceType <;> (cases h; rfl)

theorem grantPermission_ok (now : Nat) (newId : Text) (cmd : GrantPermission.Command)
    (h : GrantPermission.handle s now newId cmd = .ok s') :
    ∃ resourceType permission s₁ s₂,
      GrantPermission.requireShareRight s now cmd.callerId resourceType cmd.resourceId = .ok () ∧
      (s₁ = s ∨ ∃ id, s₁ = Permissions.delete s id) ∧
      Permissions.add s₁ (GrantPermission.row now newId cmd resourceType permission) = .ok s₂ ∧
      ((resourceType = .vault ∧
          ∃ role, s' = Vaults.addMember s₂ ⟨cmd.resourceId, cmd.targetUserId, role, now⟩) ∨
        (resourceType = .document ∧ s' = s₂)) := by
  unfold GrantPermission.handle at h
  split at h
  · cases h
  · cases h
  · rename_i resourceType permission _ _
    split at h
    · cases h
    · rename_i hright
      dsimp only at h
      split at h
      · cases h
      · rename_i s₂ hadd
        refine ⟨resourceType, permission, _, s₂, hright, ?_, hadd, ?_⟩
        · split
          · exact .inr ⟨_, rfl⟩
          · exact .inl rfl
        · cases resourceType with
          | vault => cases h; exact .inl ⟨rfl, _, rfl⟩
          | document => cases h; exact .inr ⟨rfl, rfl⟩

variable (vaultId : Text)

theorem aligned_grant (now : Nat) (newId : Text) (cmd : GrantPermission.Command)
    (ha : Aligned vaultId s) (h : GrantPermission.handle s now newId cmd = .ok s') :
    Aligned vaultId s' := by
  obtain ⟨rt, permission, s₁, s₂, -, hdel, hadd, hres⟩ := grantPermission_ok now newId cmd h
  have hkeep : s₁.members = s.members ∧ ∀ u, HasRow s₁ vaultId u → HasRow s vaultId u := by
    rcases hdel with rfl | ⟨id, rfl⟩
    · exact ⟨rfl, fun _ hr => hr⟩
    · exact ⟨rfl, fun u hr => hasRow_delete s vaultId u id hr⟩
  have hmem : s₂.members = s.members := (hasRow_add s₁ [] [] s₂ _ hadd).1.trans hkeep.1
  have hold : ∀ u, HasRow s₁ vaultId u → Member s₂ vaultId u := by
    intro u hr
    unfold Member
    rw [hmem]
    exact ha u (hkeep.2 u hr)
  intro u hu
  rcases hres with ⟨rfl, role, rfl⟩ | ⟨rfl, rfl⟩
  · rw [member_addMember]
    have hu₂ : HasRow s₂ vaultId u := by
      revert hu
      unfold HasRow Vaults.addMember
      split <;> exact id
    rcases (hasRow_add s₁ vaultId u s₂ _ hadd).2.2.1 hu₂ with hk | hk
    · simp only [GrantPermission.row, ResourcePermission.key, Prod.mk.injEq] at hk
      exact .inl ⟨hk.2.1, hk.2.2.2⟩
    · exact .inr (hold u hk)
  · rcases (hasRow_add s₁ vaultId u s' _ hadd).2.2.1 hu with hk | hk
    · simp [GrantPermission.row, ResourcePermission.key] at hk
    · exact hold u hk

theorem aligned_revoke (now : Nat) (cmd : RevokePermission.Command)
    (ha : Aligned vaultId s) (h : RevokePermission.handle s now cmd = .ok s') :
    Aligned vaultId s' := by
  obtain ⟨rt, perm, hperm, rfl⟩ := revokePermission_ok now cmd h
  intro u hu
  cases rt with
  | vault =>
    refine (member_removeMember ..).2 ⟨ha u (hasRow_delete s vaultId u perm.id hu), ?_⟩
    rintro ⟨rfl, rfl⟩
    exact not_hasRow_delete s _ _ perm hperm hu
  | document => exact ha u (hasRow_delete s vaultId u perm.id hu)

theorem aligned_add (now : Nat) (cmd : AddVaultMember.Command)
    (ha : Aligned vaultId s) (h : AddVaultMember.handle s now cmd = .ok s') :
    Aligned vaultId s' := by
  obtain ⟨-, role, rfl⟩ := addVaultMember_ok now cmd h
  intro u hu
  refine (member_addMember ..).2 (.inr (ha u ?_))
  revert hu
  unfold HasRow Vaults.addMember
  split <;> exact id

theorem aligned_remove (cmd : RemoveVaultMember.Command)
    (ha : Aligned vaultId s) (hok : RemovalClean vaultId s (.remove cmd))
    (h : RemoveVaultMember.handle s cmd = .ok s') : Aligned vaultId s' := by
  obtain ⟨hcaller, hmember, rfl⟩ := (removeVaultMember_ok cmd).1 h
  intro u hu
  refine (member_removeMember ..).2 ⟨ha u hu, ?_⟩
  rintro ⟨rfl, rfl⟩
  exact hok rfl hcaller hmember hu

theorem aligned_step (c : Command) (ha : Aligned vaultId s)
    (hok : RemovalClean vaultId s c) (h : step s c = some s') : Aligned vaultId s' := by
  unfold step at h
  split at h
  · rename_i t ht
    obtain rfl : t = s' := by simpa using h
    cases c with
    | add now cmd => exact aligned_add vaultId now cmd ha ht
    | remove cmd => exact aligned_remove vaultId cmd ha hok ht
    | grant now newId cmd => exact aligned_grant vaultId now newId cmd ha ht
    | revoke now cmd => exact aligned_revoke vaultId now cmd ha ht
  · obtain rfl : s = s' := by simpa using h
    exact ha

theorem aligned_run (hfresh : Fresh s vaultId)
    (h : Run step (RemovalClean vaultId) s s') : Aligned vaultId s' :=
  h.invariant (Aligned vaultId) (fun u hu => absurd hu (hfresh.noRow u))
    fun _ c _ ha hok hstep => aligned_step vaultId c ha hok hstep

end

/-- No guard of the vault lets the user through, whenever he asks. -/
structure ShutOut (s : Store) (userId vaultId : Text) : Prop where
  read : VaultAccessGuard.requireRead s userId vaultId ≠ .ok ()
  write : VaultAccessGuard.requireWrite s userId vaultId ≠ .ok ()
  admin : ∀ now, VaultAccessGuard.requireAdmin s now userId vaultId ≠ .ok ()
  share : ∀ now, GrantPermission.requireShareRight s now userId .vault vaultId ≠ .ok ()
  shareDocument : ∀ now docId, VaultDocuments.getVaultId s docId = some vaultId →
    GrantPermission.requireShareRight s now userId .document docId ≠ .ok ()

variable (s : Store)

theorem member_of_isMember (userId vaultId : Text) (write : Bool)
    (h : IsMember s userId vaultId write) : Member s vaultId userId := by
  obtain ⟨-, m, hm, -⟩ := h
  exact ⟨m, List.mem_of_find?_eq_some hm, by simpa using List.find?_some hm⟩

theorem hasRow_of_holdsAdmin (now : Nat) (userId vaultId : Text)
    (h : HoldsAdmin s now userId vaultId) : HasRow s vaultId userId := by
  obtain ⟨-, p, hp, -⟩ := h
  exact ⟨p, Permissions.get_mem hp⟩

theorem requireShareRight_vault (now : Nat) (userId vaultId : Text) :
    GrantPermission.requireShareRight s now userId .vault vaultId = .ok () ↔
      Owns s userId vaultId ∨ HoldsAdmin s now userId vaultId := by
  unfold GrantPermission.requireShareRight Owns HoldsAdmin
  dsimp only
  cases Vaults.getById s vaultId with
  | none => simp
  | some vault =>
    by_cases ho : vault.ownerId = userId
    · simp [Vault.isOwner, ho]
    · cases Permissions.get s .vault vaultId .user userId with
      | none => simp [Vault.isOwner, ho]
      | some p => cases hx : p.isExpired now <;> simp [Vault.isOwner, ho, hx]

theorem requireShareRight_document (now : Nat) (userId docId vaultId : Text)
    (h : VaultDocuments.getVaultId s docId = some vaultId) :
    GrantPermission.requireShareRight s now userId .document docId =
      GrantPermission.requireShareRight s now userId .vault vaultId := by
  simp [GrantPermission.requireShareRight, h]

theorem shutOut_of_not_hasRow (userId vaultId : Text) (ho : ¬ Owns s userId vaultId)
    (hm : ¬ Member s vaultId userId) (hr : ¬ HasRow s vaultId userId) :
    ShutOut s userId vaultId := by
  have hmember : ∀ write, ¬ IsMember s userId vaultId write := fun write h =>
    hm (member_of_isMember s userId vaultId write h)
  have hadmin : ∀ now, ¬ (Owns s userId vaultId ∨ HoldsAdmin s now userId vaultId) :=
    fun now h => h.elim ho fun h => hr (hasRow_of_holdsAdmin s now userId vaultId h)
  exact
    { read := fun h => ((VaultAccessGuard.requireRead_ok ..).1 h).elim ho (hmember false)
      write := fun h => ((VaultAccessGuard.requireWrite_ok ..).1 h).elim ho (hmember true)
      admin := fun now h => hadmin now ((VaultAccessGuard.requireAdmin_ok ..).1 h)
      share := fun now h => hadmin now ((requireShareRight_vault ..).1 h)
      shareDocument := fun now docId hd h => by
        rw [requireShareRight_document s now userId docId vaultId hd] at h
        exact hadmin now ((requireShareRight_vault ..).1 h) }

/-- From a fresh vault on, as long as nobody is removed while he holds a permission row, whoever is
neither owner nor member holds no row and passes no guard. -/
theorem rights_follow_membership (s s' : Store) (vaultId userId : Text) (hfresh : Fresh s vaultId)
    (h : Run step (RemovalClean vaultId) s s') (ho : ¬ Owns s' userId vaultId)
    (hm : ¬ Member s' vaultId userId) :
    ¬ HasRow s' vaultId userId ∧ ShutOut s' userId vaultId := by
  have hr : ¬ HasRow s' vaultId userId := fun hr => hm (aligned_run vaultId hfresh h userId hr)
  exact ⟨hr, shutOut_of_not_hasRow s' userId vaultId ho hm hr⟩

def freshVault : Store where
  vaults := [⟨"v".toList, "ann".toList⟩]
  members := []
  permissions := []
  shareLinks := []
  vaultDocuments := []
  users := ["ann".toList, "bob".toList]
  permissionKeys := nodup_no_permissions
  linkIds := nodup_no_links

theorem freshVault_fresh : Fresh freshVault "v".toList where
  created := ⟨_, rfl⟩
  noMember := fun u => by simp [Member, freshVault]
  noRow := fun u => by simp [HasRow, freshVault]

def grantAdmin : Command :=
  .grant 0 "p".toList ⟨"ann".toList, "vault".toList, "v".toList, "bob".toList, "admin".toList, none⟩

def removeBob : Command := .remove ⟨"ann".toList, "v".toList, "bob".toList⟩

/-- Bob is granted the administration and removed from the members: he keeps it. -/
theorem rights_survive_removal :
    ¬ ∀ (s s' : Store) (vaultId userId : Text), Fresh s vaultId →
      Run step (fun _ _ => True) s s' → ¬ Owns s' userId vaultId → ¬ Member s' vaultId userId →
      ¬ HasRow s' vaultId userId ∧ ShutOut s' userId vaultId := by
  intro hall
  have hrun : ∃ s', exec step (fun _ _ => True) freshVault [grantAdmin, removeBob] = some s' ∧
      ¬ Owns s' "bob".toList "v".toList ∧ ¬ Member s' "v".toList "bob".toList ∧
      VaultAccessGuard.requireAdmin s' 1 "bob".toList "v".toList = .ok () := by
    refine ⟨_, rfl, ?_, ?_, rfl⟩ <;> decide
  obtain ⟨s', hexec, ho, hm, hadmin⟩ := hrun
  obtain ⟨-, hshut⟩ := hall _ s' _ _ freshVault_fresh (run_of_exec _ _ _ hexec) ho hm
  exact hshut.admin 1 hadmin

theorem rights_follow_membership_revoked :
    ∃ s', Run step (RemovalClean "v".toList) freshVault s' ∧
      ¬ HasRow s' "v".toList "bob".toList ∧ ShutOut s' "bob".toList "v".toList := by
  have hrun : ∃ s', exec step (RemovalClean "v".toList) freshVault
      [grantAdmin, .revoke 1 ⟨"ann".toList, "vault".toList, "v".toList, "bob".toList⟩] = some s' ∧
      ¬ Owns s' "bob".toList "v".toList ∧ ¬ Member s' "v".toList "bob".toList := by
    refine ⟨_, rfl, ?_, ?_⟩ <;> decide
  obtain ⟨s', hexec, ho, hm⟩ := hrun
  have h := run_of_exec _ _ _ hexec
  exact ⟨s', h, rights_follow_membership _ s' _ _ freshVault_fresh h ho hm⟩

def Command.callerId : Command → Text
  | .add _ cmd => cmd.callerId
  | .remove cmd => cmd.callerId
  | .grant _ _ cmd => cmd.callerId
  | .revoke _ cmd => cmd.callerId

/-- The user owns the vault or has been given its administration, even if this has expired. -/
def Entitled (s : Store) (userId vaultId : Text) : Prop :=
  Owns s userId vaultId ∨ ∃ p ∈ s.permissions, p.key = (.vault, vaultId, .user, userId) ∧ p.permission = .admin

/-- The vault that a permission is about, itself or by one of its documents. -/
def vaultOf (s : Store) (resourceType : ResourceType) (resourceId : Text) : Option Text := match resourceType with
  | .vault => some resourceId
  | .document => VaultDocuments.getVaultId s resourceId

/-- No membership and no permission has come to be in the vault or on its documents. -/
structure NoGain (vaultId : Text) (s s' : Store) : Prop where
  vaults : s'.vaults = s.vaults
  documents : s'.vaultDocuments = s.vaultDocuments
  members : ∀ m ∈ s'.members, m.vaultId = vaultId → m ∈ s.members
  permissions : ∀ p ∈ s'.permissions, vaultOf s p.resourceType p.resourceId = some vaultId → p ∈ s.permissions

section
variable {s s' s'' : Store} {vaultId userId : Text}

theorem NoGain.trans (h : NoGain vaultId s s') (h' : NoGain vaultId s' s'') : NoGain vaultId s s'' where
  vaults := h'.vaults.trans h.vaults
  documents := h'.documents.trans h.documents
  members m hm hv := h.members m (h'.members m hm hv) hv
  permissions p hp hv := by
    refine h.permissions p (h'.permissions p hp ?_) hv
    rw [← hv]
    simp only [vaultOf, VaultDocuments.getVaultId, VaultDocuments.get, h.documents]

theorem NoGain.not_entitled (h : NoGain vaultId s s') (hu : ¬ Entitled s userId vaultId) :
    ¬ Entitled s' userId vaultId := by
  rintro (ho | ⟨p, hp, hkey, hadmin⟩)
  · exact hu (.inl (by simpa only [Owns, Vaults.getById, h.vaults] using ho))
  · have hrow : p.resourceType = .vault ∧ p.resourceId = vaultId := by
      simp only [ResourcePermission.key, Prod.mk.injEq] at hkey
      exact ⟨hkey.1, hkey.2.1⟩
    exact hu (.inr ⟨p, h.permissions p hp (by simp [vaultOf, hrow]), hkey, hadmin⟩)

theorem noGain_addMember (m : VaultMember) (hm : m.vaultId ≠ vaultId) : NoGain vaultId s (Vaults.addMember s m) := by
  unfold Vaults.addMember
  split
  · refine ⟨rfl, rfl, fun m' hm' hv => ?_, fun _ hp _ => hp⟩
    obtain ⟨x, hx, rfl⟩ := List.mem_map.1 hm'
    by_cases hx' : (x.vaultId == m.vaultId && x.userId == m.userId) = true
    · rw [if_pos hx'] at hv
      exact absurd hv hm
    · rw [if_neg hx'] at hv ⊢
      exact hx
  · refine ⟨rfl, rfl, fun m' hm' hv => ?_, fun _ hp _ => hp⟩
    obtain hm' | hm' := List.mem_append.1 hm'
    · exact hm'
    · exact absurd (List.mem_singleton.1 hm' ▸ hv) hm

theorem entitled_of_shareRight {now : Nat} {resourceType : ResourceType} {resourceId : Text}
    (h : GrantPermission.requireShareRight s now userId resourceType resourceId = .ok ())
    (hv : vaultOf s resourceType resourceId = some vaultId) : Entitled s userId vaultId := by
  have hvault : GrantPermission.requireShareRight s now userId .vault vaultId = .ok () := by
    cases resourceType with
    | vault => exact Option.some.inj hv ▸ h
    | document => rwa [requireShareRight_document s now userId resourceId vaultId hv] at h
  obtain ho | ⟨-, p, hp, -, hadmin⟩ := (requireShareRight_vault s now userId vaultId).1 hvault
  · exact .inl ho
  · obtain ⟨hmem, hkey⟩ := Permissions.get_mem hp
    exact .inr ⟨p, hmem, hkey, hadmin⟩

theorem noGain_step (c : Command) (hc : ¬ Entitled s c.callerId vaultId) (h : step s c = some s') :
    NoGain vaultId s s' := by
  unfold step at h
  split at h <;> cases h
  · rename_i h
    cases c with
    | add now cmd =>
      obtain ⟨ho, role, rfl⟩ := addVaultMember_ok now cmd h
      exact noGain_addMember _ fun hv => hc (.inl (hv ▸ ho))
    | remove cmd =>
      obtain ⟨-, -, rfl⟩ := (removeVaultMember_ok cmd).1 h
      exact ⟨rfl, rfl, fun _ hm _ => List.mem_of_mem_filter hm, fun _ hp _ => hp⟩
    | revoke now cmd =>
      obtain ⟨rt, perm, -, rfl⟩ := revokePermission_ok now cmd h
      cases rt with
      | vault => exact ⟨rfl, rfl, fun _ hm _ => List.mem_of_mem_filter hm, fun _ hp _ => List.mem_of_mem_filter hp⟩
      | document => exact ⟨rfl, rfl, fun _ hm _ => hm, fun _ hp _ => List.mem_of_mem_filter hp⟩
    | grant now newId cmd =>
      obtain ⟨rt, permission, s₁, s₂, hright, hdel, hadd, hres⟩ := grantPermission_ok now newId cmd h
      have hother : vaultOf s rt cmd.resourceId ≠ some vaultId := fun hv => hc (entitled_of_shareRight hright hv)
      have hdeleted : NoGain vaultId s s₁ := by
        obtain rfl | ⟨id, rfl⟩ := hdel
        · exact ⟨rfl, rfl, fun _ hm _ => hm, fun _ hp _ => hp⟩
        · exact ⟨rfl, rfl, fun _ hm _ => hm, fun _ hp _ => List.mem_of_mem_filter hp⟩
      have hadded : NoGain vaultId s s₂ := by
        unfold Permissions.add at hadd
        split at hadd <;> cases hadd
        refine ⟨hdeleted.vaults, hdeleted.documents, hdeleted.members, fun p hp hv => ?_⟩
        obtain hp | hp := List.mem_append.1 hp
        · exact hdeleted.permissions p hp hv
        · rw [List.mem_singleton.1 hp] at hv
          exact absurd hv hother
      obtain ⟨rfl, role, rfl⟩ | ⟨rfl, rfl⟩ := hres
      · exact hadded.trans (noGain_addMember _ fun hv => hother (congrArg some hv))
      · exact hadded
  · exact ⟨rfl, rfl, fun _ hm _ => hm, fun _ hp _ => hp⟩

end

/-- Whoever neither owns the vault nor administers it: no sequence of their commands, together, gives anybody a
membership of the vault or a permission on it or on one of its documents. -/
theorem outsiders_gain_nothing (s s' : Store) (vaultId : Text) (outsider : Text → Prop)
    (hout : ∀ u, outsider u → ¬ Entitled s u vaultId) (h : Run step (fun _ c => outsider c.callerId) s s') :
    NoGain vaultId s s' := by
  refine h.invariant (NoGain vaultId s) ⟨rfl, rfl, fun _ hm _ => hm, fun _ hp _ => hp⟩ fun t c t' ht hc hstep => ?_
  exact ht.trans (noGain_step c (ht.not_entitled (hout _ hc)) hstep)

theorem outsiders_gain_nothing_refused : ∃ s', Run step (fun _ c => c.callerId = "bob".toList) freshVault s' ∧
    NoGain "v".toList freshVault s' := by
  have hrun : ∃ s', exec step (fun _ c => c.callerId = "bob".toList) freshVault
      [.grant 0 "p".toList ⟨"bob".toList, "vault".toList, "v".toList, "bob".toList, "admin".toList, none⟩] = some s' :=
    ⟨_, rfl⟩
  obtain ⟨s', hexec⟩ := hrun
  have h := run_of_exec _ _ _ hexec
  refine ⟨s', h, outsiders_gain_nothing freshVault s' _ (· = "bob".toList) ?_ h⟩
  rintro u rfl (ho | ⟨p, hp, -⟩)
  · exact absurd ho (by decide)
  · cases hp

end Savoire.Access
