import Mathlib.Logic.Function.Basic
import Mathlib.Data.List.Basic

/-!
# Network address limits

`p2p/netutil/net.go`: which addresses are local (`IsLAN`), and `DistinctNetSet`, the counter
that limits how many addresses of one subnet a set holds.  An address is its bytes, four for
IPv4 and sixteen for IPv6, as `net.IP` is.  The networks of the LAN lists are the ones
`net.ParseCIDR` gives for the source's literals: a network number and a mask of the same
length.

The counts of a set are a function from keys to numbers: a key with no entry in the source's
map counts zero, and `Remove` at count one deletes the entry.  `members_Add` and
`members_Remove` say what the two operations do to the counts.
-/

namespace Atlantis.Netutil

/-- `net.IP.To4`: a four-byte address, or the last four bytes of an IPv4-mapped one. -/
def To4 (ip : List UInt8) : Option (List UInt8) :=
  if ip.length = 4 then some ip
  else if ip.length = 16 ∧ (ip.take 10).all (· == 0) ∧ ip.getD 10 0 = 0xff ∧ ip.getD 11 0 = 0xff
  then some (ip.drop 12)
  else none

/-- `net.IPv6loopback`, the address `::1`. -/
def IPv6loopback : List UInt8 := List.replicate 15 0 ++ [1]

/-- `net.IP.IsLoopback`: `127.0.0.0/8`, or `::1`. -/
def IsLoopback (ip : List UInt8) : Bool :=
  match To4 ip with
  | some ip4 => ip4.getD 0 0 == 127
  | none => ip == IPv6loopback

/-- `net.IPNet`: a network number and its mask. -/
structure IPNet where
  IP : List UInt8
  Mask : List UInt8
  deriving DecidableEq, Repr

/-- `net.IPNet.Contains` for a network of the form `net.ParseCIDR` returns: the address,
as four bytes if it is IPv4, has the network's length and agrees with it under the mask. -/
def IPNet.Contains (n : IPNet) (ip : List UInt8) : Bool :=
  let ip := (To4 ip).getD ip
  ip.length == n.IP.length &&
    ((n.IP.zip n.Mask).zip ip).all fun ((nn, m), x) => nn &&& m == x &&& m

/-- `Netlist`, a list of networks. -/
abbrev Netlist := List IPNet

/-- `Netlist.Contains`: some network of the list holds the address. -/
def Netlist.Contains (l : Netlist) (ip : List UInt8) : Bool :=
  l.any fun net => net.Contains ip

/-- `lan4`: `0.0.0.0/8`, `10.0.0.0/8`, `172.16.0.0/12` and `192.168.0.0/16`. -/
def lan4 : Netlist :=
  [⟨[0, 0, 0, 0], [255, 0, 0, 0]⟩, ⟨[10, 0, 0, 0], [255, 0, 0, 0]⟩,
    ⟨[172, 16, 0, 0], [255, 240, 0, 0]⟩, ⟨[192, 168, 0, 0], [255, 255, 0, 0]⟩]

/-- `lan6`: `fe80::/10` and `fc00::/7`. -/
def lan6 : Netlist :=
  [⟨[0xfe, 0x80] ++ List.replicate 14 0, [255, 192] ++ List.replicate 14 0⟩,
    ⟨[0xfc] ++ List.replicate 15 0, [254] ++ List.replicate 15 0⟩]

/-- `IsLAN`: a loopback address or one of the local networks. -/
def IsLAN (ip : List UInt8) : Bool :=
  IsLoopback ip ||
    match To4 ip with
    | some v4 => lan4.Contains v4
    | none => lan6.Contains ip

/-- `DistinctNetSet`: at most `Limit` addresses of each subnet of `Subnet` prefix bits. -/
structure DistinctNetSet where
  Subnet : Nat
  Limit : Nat
  members : List UInt8 → Nat

/-- `DistinctNetSet.key`: `'4'` or `'6'`, then the address cut to the subnet's bits. -/
def DistinctNetSet.key (s : DistinctNetSet) (ip : List UInt8) : List UInt8 :=
  let (typ, ip) : UInt8 × List UInt8 :=
    match To4 ip with
    | some ip4 => ('4'.toNat.toUInt8, ip4)
    | none => ('6'.toNat.toUInt8, ip)
  let bits := min s.Subnet (ip.length * 8)
  let nb := bits / 8
  let mask : UInt8 := ~~~(0xFF >>> (bits % 8).toUInt8)
  typ :: ip.take nb ++ (if nb < ip.length ∧ mask ≠ 0 then [ip.getD nb 0 &&& mask] else [])

/-- `DistinctNetSet.Add`: count the address unless its subnet is full. -/
def DistinctNetSet.Add (s : DistinctNetSet) (ip : List UInt8) : Bool × DistinctNetSet :=
  let key := s.key ip
  let n := s.members key
  if n < s.Limit then (true, { s with members := Function.update s.members key (n + 1) })
  else (false, s)

/-- `DistinctNetSet.Remove`: uncount the address, if its subnet has an entry. -/
def DistinctNetSet.Remove (s : DistinctNetSet) (ip : List UInt8) : DistinctNetSet :=
  let key := s.key ip
  -- no entry counts zero, and deleting the entry at one leaves zero
  if s.members key = 0 then s
  else { s with members := Function.update s.members key (s.members key - 1) }

namespace DistinctNetSet

variable (s : DistinctNetSet) (ip : List UInt8)

@[simp] theorem Add_fst : (s.Add ip).1 = decide (s.members (s.key ip) < s.Limit) := by
  simp only [Add]
  split_ifs with h <;> simp [h]

@[simp] theorem Subnet_Add : (s.Add ip).2.Subnet = s.Subnet := by
  simp only [Add]
  split_ifs <;> rfl

@[simp] theorem Limit_Add : (s.Add ip).2.Limit = s.Limit := by
  simp only [Add]
  split_ifs <;> rfl

@[simp] theorem Subnet_Remove : (s.Remove ip).Subnet = s.Subnet := by
  simp only [Remove]
  split_ifs <;> rfl

@[simp] theorem Limit_Remove : (s.Remove ip).Limit = s.Limit := by
  simp only [Remove]
  split_ifs <;> rfl

@[simp] theorem key_Add : (s.Add ip).2.key = s.key := by
  funext x
  simp only [key, Subnet_Add]

@[simp] theorem key_Remove : (s.Remove ip).key = s.key := by
  funext x
  simp only [key, Subnet_Remove]

/-- A successful `Add` counts the address's subnet once more. -/
theorem members_Add (h : s.members (s.key ip) < s.Limit) (k : List UInt8) :
    (s.Add ip).2.members k = s.members k + if k = s.key ip then 1 else 0 := by
  simp only [Add, if_pos h]
  by_cases hk : k = s.key ip
  · subst hk
    simp
  · simp [hk]

/-- `Remove` counts the address's subnet once less, down to zero. -/
theorem members_Remove (k : List UInt8) :
    (s.Remove ip).members k = if k = s.key ip then s.members k - 1 else s.members k := by
  simp only [Remove]
  by_cases hk : k = s.key ip
  · subst hk
    rw [if_pos rfl]
    split_ifs with h <;> simp [h]
  · split_ifs <;> simp [hk]

end DistinctNetSet

end Atlantis.Netutil
