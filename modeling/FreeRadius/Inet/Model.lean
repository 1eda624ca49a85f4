import FreeRadius.Library.Networks

/-!
# Addresses

`fr_ipaddr_t` of `inet.h`: an address in network byte order with the length of its prefix.
-/

namespace FreeRadius.Inet

open Library

/-- `AF_INET` and `AF_INET6` -/
inductive Af where
  | inet
  | inet6
  deriving DecidableEq, Repr

def Af.size : Af → ℕ
  | .inet => 4
  | .inet6 => 16

/-- `fr_ipaddr_t` -/
@[ext]
structure FrIpaddr where
  af : Af
  addr : List UInt8
  prefixLen : UInt8
  deriving DecidableEq, Repr

/-- A prefix whose length is in the range of its family, with host bits that are zero. -/
structure IpPrefix (af : Af) where
  ip : FrIpaddr
  af_eq : ip.af = af
  length_addr : ip.addr.length = af.size
  prefixLen_le : ip.prefixLen.toNat ≤ 8 * af.size
  hostBitsZero : HostBitsZero ip.addr ip.prefixLen.toNat

section

variable {af : Af} (p : IpPrefix af)

theorem IpPrefix.prefixLen_le_addr : p.ip.prefixLen.toNat ≤ 8 * p.ip.addr.length := by
  rw [p.length_addr]
  exact p.prefixLen_le

theorem IpPrefix.prefixBytes_le : prefixBytes p.ip.prefixLen.toNat ≤ af.size := by
  rw [← p.length_addr]
  exact Library.prefixBytes_le p.prefixLen_le_addr

theorem IpPrefix.addr_eq :
    p.ip.addr.take (prefixBytes p.ip.prefixLen.toNat) ++
      List.replicate (af.size - prefixBytes p.ip.prefixLen.toNat) 0 = p.ip.addr := by
  have h := p.hostBitsZero.take_append p.prefixLen_le_addr
  rwa [p.length_addr] at h

theorem IpPrefix.length_take_addr :
    (p.ip.addr.take (prefixBytes p.ip.prefixLen.toNat)).length =
      prefixBytes p.ip.prefixLen.toNat := by
  rw [List.length_take, p.length_addr, Nat.min_eq_left p.prefixBytes_le]

end

def tenSlash12 : IpPrefix .inet where
  ip := { af := .inet, addr := [10, 0, 0, 0], prefixLen := 12 }
  af_eq := rfl
  length_addr := rfl
  prefixLen_le := by decide
  hostBitsZero := by decide

end FreeRadius.Inet
