import Pcmi.Go.Strconv

/-!
# Addresses of Go's `net` package

`net.SplitHostPort`, `net.ParseIP` and what a `net.IP`, 4 or 16 bytes, says about itself. `ParseIP`
returns 16, an IPv4 address as one in `::ffff:0:0/96`, which `To4` reverses.
-/

namespace Pcmi.Go

/-! ## Host and port -/

def addrError (addr : Bytes) (why : String) : Bytes :=
  ascii "address " ++ addr ++ ascii ": " ++ ascii why

/-- `bytealg.LastIndexByteString`. -/
def lastIndexByte (s : Bytes) (c : UInt8) : Option Nat :=
  (s.reverse.findIdx? (· == c)).map fun i => s.length - 1 - i

/-- The host in `hostport`, whose last colon is at `i`. -/
def splitHost (hostport : Bytes) (i : Nat) : Except Bytes (Bytes × Nat × Nat) :=
  if hostport.head? = some 0x5B then
    match hostport.findIdx? (· == 0x5D) with
    | none => .error (addrError hostport "missing ']' in address")
    | some last =>
      if last + 1 = hostport.length then .error (addrError hostport "missing port in address")
      else if last + 1 = i then .ok ((hostport.take last).drop 1, 1, last + 1)
      else if hostport[last + 1]? = some 0x3A then
        .error (addrError hostport "too many colons in address")
      else .error (addrError hostport "missing port in address")
  else if (hostport.take i).contains 0x3A then
    .error (addrError hostport "too many colons in address")
  else .ok (hostport.take i, 0, 0)

def splitHostPort (hostport : Bytes) : Except Bytes (Bytes × Bytes) :=
  match lastIndexByte hostport 0x3A with
  | none => .error (addrError hostport "missing port in address")
  | some i =>
    (splitHost hostport i).bind fun (host, j, k) =>
      if (hostport.drop j).contains 0x5B then
        .error (addrError hostport "unexpected '[' in address")
      else if (hostport.drop k).contains 0x5D then
        .error (addrError hostport "unexpected ']' in address")
      else .ok (host, hostport.drop (i + 1))

/-! ## Parsing -/

abbrev IP := Bytes

/-- The first bytes of an IPv4 address in 16 bytes. -/
def v4InV6Prefix : Bytes := List.replicate 10 0 ++ [0xFF, 0xFF]

/-- The loop of `netip.parseIPv4Fields`, with the value and digits of the field. -/
def parseIPv4Fields : Bytes → List UInt8 → Nat → Nat → Option (List UInt8)
  | [], fields, val, _ => if fields.length < 3 then none else some (fields ++ [UInt8.ofNat val])
  | c :: rest, fields, val, digLen =>
    if 0x30 ≤ c ∧ c ≤ 0x39 then
      if digLen = 1 ∧ val = 0 then none
      else
        let val := val * 10 + (c.toNat - 0x30)
        if 255 < val then none else parseIPv4Fields rest fields val (digLen + 1)
    else if c = 0x2E then
      if digLen = 0 ∨ rest = [] then none
      else if fields.length = 3 then none
      else parseIPv4Fields rest (fields ++ [UInt8.ofNat val]) 0 0
    else none

/-- `netip.parseIPv4`, in 16 bytes. -/
def parseIPv4 (s : Bytes) : Option IP := (parseIPv4Fields s [] 0 0).map (v4InV6Prefix ++ ·)

/-- The loop of `netip.parseIPv6`: the bytes, the place of `::` and the rest. -/
def parseGroups : Nat → Bytes → Option Nat → Bytes → Option (Bytes × Option Nat × Bytes)
  | 0, s, ellipsis, ip => some (ip, ellipsis, s)
  | n + 1, s, ellipsis, ip =>
    let digits := s.takeWhile fun c => (fromHexChar c).isSome
    let rest := s.dropWhile fun c => (fromHexChar c).isSome
    if digits.length = 0 ∨ 4 < digits.length then none
    else if rest.head? = some 0x2E then
      -- an IPv4 address takes the place of the last two groups
      if (ellipsis.isNone ∧ n + 1 ≠ 2) ∨ n + 1 < 2 then none
      else (parseIPv4Fields s [] 0 0).map fun fields => (ip ++ fields, ellipsis, [])
    else
      let ip := ip ++ [UInt8.ofNat (hexValue digits / 256), UInt8.ofNat (hexValue digits % 256)]
      match rest with
      | [] => some (ip, ellipsis, [])
      | [_] => none
      | c :: d :: rest =>
        if c ≠ 0x3A then none
        else if d = 0x3A then
          if ellipsis.isSome then none
          else if rest = [] then some (ip, some ip.length, [])
          else parseGroups n rest (some ip.length) ip
        else parseGroups n (d :: rest) ellipsis ip

/-- The zeros that `::` stands for. -/
def expandEllipsis (ip : Bytes) (ellipsis : Option Nat) : Option IP :=
  match ellipsis with
  | none => if ip.length < 16 then none else some ip
  | some i =>
    if ip.length < 16 then some (ip.take i ++ List.replicate (16 - ip.length) 0 ++ ip.drop i)
    else none

/-- `netip.parseIPv6`; an address with a zone is none of `net.ParseIP`. -/
def parseIPv6 (s : Bytes) : Option IP :=
  if s.contains 0x25 then none
  else
    let ellipsis := if s.take 2 = [0x3A, 0x3A] then some 0 else none
    let s := if s.take 2 = [0x3A, 0x3A] then s.drop 2 else s
    if ellipsis.isSome ∧ s = [] then some (List.replicate 16 0)
    else
      match parseGroups 8 s ellipsis [] with
      | some (ip, ellipsis, []) => expandEllipsis ip ellipsis
      | _ => none

def parseIP (s : Bytes) : Option IP :=
  match s.find? fun c => c == 0x2E || c == 0x3A || c == 0x25 with
  | some c => if c = 0x2E then parseIPv4 s else if c = 0x3A then parseIPv6 s else none
  | none => none

example : parseIP (ascii "::ffff:127.0.0.1") = parseIP (ascii "127.0.0.1") := by decide +kernel

/-! ## Questions -/

namespace IP

def to4 (ip : IP) : Option IP :=
  if ip.length = 4 then some ip
  else if ip.length = 16 ∧ ip.take 12 = v4InV6Prefix then some (ip.drop 12)
  else none

def equal (ip x : IP) : Bool :=
  if ip.length = x.length then ip == x
  else if ip.length = 4 ∧ x.length = 16 then x.take 12 == v4InV6Prefix && ip == x.drop 12
  else if ip.length = 16 ∧ x.length = 4 then ip.take 12 == v4InV6Prefix && ip.drop 12 == x
  else false

def byte (ip : IP) (i : Nat) : UInt8 := ip.getD i 0

def isUnspecified (ip : IP) : Bool :=
  ip.equal (v4InV6Prefix ++ [0, 0, 0, 0]) || ip.equal (List.replicate 16 0)

def isLoopback (ip : IP) : Bool :=
  match ip.to4 with
  | some ip4 => ip4.byte 0 == 127
  | none => ip.equal (List.replicate 15 0 ++ [1])

def isPrivate (ip : IP) : Bool :=
  match ip.to4 with
  | some ip4 =>
    ip4.byte 0 == 10 || (ip4.byte 0 == 172 && ip4.byte 1 &&& 0xF0 == 16) ||
      (ip4.byte 0 == 192 && ip4.byte 1 == 168)
  | none => decide (ip.length = 16) && ip.byte 0 &&& 0xFE == 0xFC

def isMulticast (ip : IP) : Bool :=
  match ip.to4 with
  | some ip4 => ip4.byte 0 &&& 0xF0 == 0xE0
  | none => decide (ip.length = 16) && ip.byte 0 == 0xFF

def isLinkLocalMulticast (ip : IP) : Bool :=
  match ip.to4 with
  | some ip4 => ip4.byte 0 == 224 && ip4.byte 1 == 0 && ip4.byte 2 == 0
  | none => decide (ip.length = 16) && ip.byte 0 == 0xFF && ip.byte 1 &&& 0x0F == 0x02

def isLinkLocalUnicast (ip : IP) : Bool :=
  match ip.to4 with
  | some ip4 => ip4.byte 0 == 169 && ip4.byte 1 == 254
  | none => decide (ip.length = 16) && ip.byte 0 == 0xFE && ip.byte 1 &&& 0xC0 == 0x80

variable {ip : IP}

theorem to4_of_length (h : ip.length = 4) : ip.to4 = some ip:= if_pos h

theorem to4_mapped (hlength : ip.length = 16) (hmapped : ip.take 12 = v4InV6Prefix) :
    ip.to4 = some (ip.drop 12) := by
  rw [to4, if_neg (by omega), if_pos ⟨hlength, hmapped⟩]

end IP

end Pcmi.Go
