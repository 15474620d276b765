import Pcmi.Go.Net

/-!
# The dial hook of `GuardedHTTPClient`

The hook sees the address after resolution, as text, and refuses what `blockedIP` rejects. Several
kinds of IPv6 addresses stand for an IPv4 address (`denoted`); `blockedIP` takes that of one kind
only, `::ffff:0:0/96`.
-/

namespace Pcmi.Webhook

open Pcmi.Go

/-! ## The guard -/

def blockedIP : Option IP → Bool
  | none => true
  | some ip =>
    let ip := ip.to4.getD ip
    ip.isLoopback || ip.isPrivate || ip.isLinkLocalUnicast || ip.isLinkLocalMulticast ||
      ip.isMulticast || ip.isUnspecified

/-- Why the hook refuses an address. -/
inductive DialError where
  /-- The error of `net.SplitHostPort`. -/
  | address (message : Bytes)
  /-- `blocked webhook target address %q`. -/
  | blocked (address : Bytes)
  deriving DecidableEq

/-- The `Control` function of the dialer. -/
def control (privateTargetsAllowed : Bool) (address : Bytes) : Except DialError Unit :=
  if privateTargetsAllowed then .ok ()
  else
    match splitHostPort address with
    | .error e => .error (.address e)
    | .ok (host, _) =>
      match parseIP host with
      | none => .error (.blocked address)
      | some ip => if blockedIP (some ip) then .error (.blocked address) else .ok ()

/-- The IP address that an address text names. -/
def target (address : Bytes) : Option IP :=
  match splitHostPort address with
  | .error _ => none
  | .ok (host, _) => parseIP host

/-! ## IPv4 addresses in IPv6 addresses -/

def embedded (leading : Bytes) (ip : IP) : List IP :=
  if ip.length = 16 ∧ ip.take leading.length = leading then [(ip.drop leading.length).take 4] else
      []

/-- Where a gateway sends on an IPv6 address: IPv4-compatible (`::/96`), NAT64 (`64:ff9b::/96`) and
6to4 (`2002::/16`). -/
def translations (ip : IP) : List IP :=
  embedded (List.replicate 12 0) ip ++
    embedded ([0x00, 0x64, 0xFF, 0x9B] ++ List.replicate 8 0) ip ++ embedded [0x20, 0x02] ip

/-- The IPv4 addresses that an IP address stands for. -/
def denoted (ip : IP) : List IP :=
  (if ip.length = 4 then [ip] else []) ++ embedded v4InV6Prefix ip ++ translations ip

theorem blockedIP_of_mapped {ip v4 : IP} (h : v4 ∈ embedded v4InV6Prefix ip) :
    blockedIP (some ip) = blockedIP (some v4) := by
  unfold embedded at h
  split at h
  · next hmapped =>
    have hlength : (ip.drop 12).length = 4 := by rw [List.length_drop, hmapped.1]
    obtain rfl : v4 = (ip.drop 12).take 4 := List.mem_singleton.mp h
    rw [List.take_of_length_le hlength.le]
    dsimp only [blockedIP]
    rw [IP.to4_mapped hmapped.1 hmapped.2, IP.to4_of_length hlength]
    rfl
  · cases h

theorem target_of_control {address : Bytes} (h : control false address = .ok ()) :
    ∃ ip, target address = some ip ∧ blockedIP (some ip) = false := by
  unfold control at h
  rw [if_neg Bool.false_ne_true] at h
  unfold target
  split at h
  · cases h
  next host port hsplit =>
  split at h
  · cases h
  next ip hip =>
  split at h
  · cases h
  · next hfree => exact ⟨ip, hip, Bool.eq_false_iff.mpr hfree⟩

/-- **The hook keeps blocked IPv4 addresses out**, but for transition addresses. -/
theorem dial_guard_iff {address : Bytes} (h : control false address = .ok ()) :
    ∃ ip, target address = some ip ∧
      ((∀ v4 ∈ denoted ip, blockedIP (some v4) = false) ↔
        ∀ v4 ∈ translations ip, blockedIP (some v4) = false) := by
  obtain ⟨ip, htarget, hfree⟩ := target_of_control h
  refine ⟨ip, htarget, ?_⟩
  have hplain : ∀ v4 ∈ if ip.length = 4 then [ip] else [], blockedIP (some v4) = false := by
    intro v4 hv4
    split at hv4
    · rwa [List.mem_singleton.mp hv4]
    · cases hv4
  have hmapped : ∀ v4 ∈ embedded v4InV6Prefix ip, blockedIP (some v4) = false := fun v4 hv4 => by
    rwa [← blockedIP_of_mapped hv4]
  rw [denoted, List.forall_mem_append, List.forall_mem_append]
  exact ⟨fun hall => hall.2, fun htranslated => ⟨⟨hplain, hmapped⟩, htranslated⟩⟩

theorem dial_guard_sixToFour : control false (ascii "[2002:808:808::1]:443") = .ok () ∧
    ∃ ip, target (ascii "[2002:808:808::1]:443") = some ip ∧
      ∀ v4 ∈ denoted ip, blockedIP (some v4) = false := by
  have haccept : control false (ascii "[2002:808:808::1]:443") = .ok () := by decide +kernel
  have htranslated : ∀ ip ∈ target (ascii "[2002:808:808::1]:443"), ∀ v4 ∈ translations ip,
      blockedIP (some v4) = false := by decide +kernel
  obtain ⟨ip, htarget, hiff⟩ := dial_guard_iff haccept
  exact ⟨haccept, ip, htarget, hiff.mpr (htranslated ip htarget)⟩

/-- The hook lets an address through that stands for a blocked one. -/
def Bypasses (address : Bytes) : Prop :=
  control false address = .ok () ∧
    ∃ ip ∈ target address, ∃ v4 ∈ denoted ip, blockedIP (some v4) = true

instance (address : Bytes) : Decidable (Bypasses address) :=
  inferInstanceAs (Decidable (_ ∧ ∃ ip ∈ target address, _))

/-- **The hook lets through 127.0.0.1 (IPv4-compatible), the metadata address (NAT64) and 10.0.0.1
(6to4).** -/
theorem dial_guard_bypassed : Bypasses (ascii "[::7f00:1]:80") ∧
    Bypasses (ascii "[64:ff9b::a9fe:a9fe]:80") ∧ Bypasses (ascii "[2002:a00:1::1]:80") := by
  decide +kernel

end Pcmi.Webhook
