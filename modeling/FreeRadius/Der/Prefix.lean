import FreeRadius.Der.Integer

/-!
# DER IP prefixes

A prefix is a BIT STRING of its bits: a byte with the number of unused bits in the last byte, and
the bytes that hold the bits. The encoders compute the number of unused bits as eight minus a
remainder, which is eight and not zero where the length is a multiple of eight.
-/

namespace FreeRadius.Der

open Inet Library

theorem unusedBits_toNat (prefixLen : UInt8) :
    (8 - (prefixLen &&& 0x07)).toNat = 8 - prefixLen.toNat % 8 :=
  forall_uint8 (P := fun b => (8 - (b &&& 0x07)).toNat = 8 - b.toNat % 8) (by decide) prefixLen

theorem unusedBits_eq {p : ℕ} (h : p % 8 ≠ 0) : 8 - p % 8 = 8 * prefixBytes p - p := by
  rw [prefixBytes]
  omega

variable {room : ℕ}

theorem dbuffIn_nil (b : UInt8) (h : 0 < room) : dbuffIn room [] b = .ok [b] := by
  rw [dbuffIn, List.length_nil, if_pos h, List.nil_append]

theorem writeAll_singleton {b : UInt8} {bytes : List UInt8} (h : bytes.length < room) :
    writeAll room [b] bytes = .ok (b :: bytes) := by
  rw [writeAll, List.singleton_append, List.length_cons, if_pos (Nat.succ_le_of_lt h)]

section Family

variable {af : Af} (p : IpPrefix af)

theorem prefixLen_eq_iff : p.ip.prefixLen = UInt8.ofNat (8 * af.size) ↔
    p.ip.prefixLen.toNat = 8 * af.size := by
  rw [← UInt8.toNat_inj]
  cases af <;> rfl

/-- The bytes that are written: all bits of a whole address, or those of the prefix. -/
theorem encodePrefix_eq (hroom : 1 + af.size ≤ room) :
    encodePrefix room p.ip =
      if p.ip.prefixLen.toNat = 8 * af.size then .ok (0x00 :: p.ip.addr)
      else .ok ((8 - (p.ip.prefixLen &&& 0x07)) ::
        p.ip.addr.take (prefixBytes p.ip.prefixLen.toNat)) := by
  have hlen : (p.ip.prefixLen.toNat + 0x07) >>> 3 = prefixBytes p.ip.prefixLen.toNat :=
    Nat.shiftRight_eq_div_pow _ 3
  have htake := p.length_take_addr
  have hle := p.prefixBytes_le
  rw [encodePrefix, p.af_eq]
  by_cases hall : p.ip.prefixLen.toNat = 8 * af.size
  · rw [if_pos ((prefixLen_eq_iff p).mpr hall), if_pos hall, dbuffIn_nil _ (by omega)]
    exact writeAll_singleton (by rw [p.length_addr]; omega)
  rw [if_neg fun h => hall ((prefixLen_eq_iff p).mp h), if_neg hall, dbuffIn_nil _ (by omega)]
  change (if _ then _ else _) = _
  rw [hlen]
  split
  · exact writeAll_singleton (by omega)
  · next hzero => rw [not_not.mp hzero, List.take_zero]

/-- The content is the bit string of the prefix: the number of unused bits, the bytes that hold the
others, and `decode` answers the prefix for it. -/
def IsBitString (decode : List UInt8 → Except DerError FrIpaddr) (ip : FrIpaddr)
    (content : List UInt8) : Prop :=
  ∃ unused data, content = unused :: data ∧ data.length = prefixBytes ip.prefixLen.toNat ∧
    unused.toNat = 8 * prefixBytes ip.prefixLen.toNat - ip.prefixLen.toNat ∧ decode content = .ok ip

theorem isBitString_take {unused : UInt8} (hunused : unused.toNat =
    8 * prefixBytes p.ip.prefixLen.toNat - p.ip.prefixLen.toNat) :
    IsBitString (decodePrefix af) p.ip
      (unused :: p.ip.addr.take (prefixBytes p.ip.prefixLen.toNat)) := by
  have hle : unused ≤ 7 := by
    rw [UInt8.le_iff_toNat_le, hunused, prefixBytes]
    change _ ≤ 7
    omega
  have hback : UInt8.ofNat (prefixBytes p.ip.prefixLen.toNat * 8) - unused = p.ip.prefixLen := by
    have hlt := p.ip.prefixLen.toNat_lt
    rw [← UInt8.toNat_inj, UInt8.toNat_sub, UInt8.toNat_ofNat', hunused]
    rw [prefixBytes] at *
    omega
  refine ⟨unused, _, rfl, p.length_take_addr, hunused, ?_⟩
  have hbytes := p.prefixBytes_le
  rw [decodePrefix, p.length_take_addr, if_neg (by omega), if_neg (UInt8.not_lt.mpr hle), p.addr_eq, hback]
  exact congrArg Except.ok (FrIpaddr.ext p.af_eq.symm rfl rfl)

theorem encodePrefix_isBitString_iff (hroom : 1 + af.size ≤ room) :
    (∃ content, encodePrefix room p.ip = .ok content ∧
      IsBitString (decodePrefix af) p.ip content) ↔
    p.ip.prefixLen.toNat = 8 * af.size ∨ p.ip.prefixLen.toNat % 8 ≠ 0 := by
  rw [encodePrefix_eq p hroom]
  by_cases hall : p.ip.prefixLen.toNat = 8 * af.size
  · -- all bytes of the address are the bytes of the prefix
    have hbytes : prefixBytes p.ip.prefixLen.toNat = af.size := by
      rw [hall, prefixBytes]
      omega
    have htake : p.ip.addr.take (prefixBytes p.ip.prefixLen.toNat) = p.ip.addr := by
      rw [hbytes, ← p.length_addr, List.take_length]
    rw [if_pos hall]
    refine iff_of_true ⟨_, rfl, ?_⟩ (.inl hall)
    rw [← htake]
    exact isBitString_take p (by rw [hbytes, hall, Nat.sub_self]; rfl)
  · rw [if_neg hall]
    constructor
    · rintro ⟨content, hcontent, unused, data, hcons, -, hunused, -⟩
      cases hcontent
      obtain ⟨rfl, -⟩ := List.cons.inj hcons
      rw [unusedBits_toNat, prefixBytes] at hunused
      exact .inr (by omega)
    · intro h
      have hne : p.ip.prefixLen.toNat % 8 ≠ 0 := h.resolve_left hall
      exact ⟨_, rfl, isBitString_take p ((unusedBits_toNat _).trans (unusedBits_eq hne))⟩

end Family

/-- A prefix goes through the encoder and the decoder of its family, as the bit string it should
be, unless its length is a multiple of eight that is not written apart. -/
theorem derPrefix_roundTrip_iff (room : ℕ) :
    (∀ p : IpPrefix .inet, 1 + Af.inet.size ≤ room →
      ((∃ content, frDerEncodeIpv4Prefix room p.ip = .ok content ∧
          IsBitString frDerDecodeIpv4Prefix p.ip content) ↔
        p.ip.prefixLen.toNat = 0 ∨ p.ip.prefixLen.toNat = 32 ∨ p.ip.prefixLen.toNat % 8 ≠ 0)) ∧
    (∀ p : IpPrefix .inet6, 1 + Af.inet6.size ≤ room →
      ((∃ content, frDerEncodeIpv6Prefix room p.ip = .ok content ∧
          IsBitString frDerDecodeIpv6Prefix p.ip content) ↔
        p.ip.prefixLen.toNat = 128 ∨ p.ip.prefixLen.toNat % 8 ≠ 0)) := by
  constructor
  · intro p hroom
    rw [frDerEncodeIpv4Prefix]
    by_cases hzero : p.ip.prefixLen = 0
    · have htoNat : p.ip.prefixLen.toNat = 0 := by rw [hzero]; rfl
      have htake : p.ip.addr.take (prefixBytes p.ip.prefixLen.toNat) = [] := by
        rw [htoNat]
        rfl
      have hbits := @isBitString_take _ p 0x00 (by rw [htoNat]; rfl)
      rw [htake] at hbits
      rw [if_pos hzero, dbuffIn_nil _ (by omega)]
      exact iff_of_true ⟨_, rfl, hbits⟩ (.inl htoNat)
    · have htoNat : p.ip.prefixLen.toNat ≠ 0 := fun h => hzero (UInt8.toNat_inj.mp h)
      rw [if_neg hzero, or_iff_right htoNat]
      exact encodePrefix_isBitString_iff p hroom
  · intro p hroom
    exact encodePrefix_isBitString_iff p hroom

theorem derPrefix_roundTrip_tenSlash12 :
    ∃ content, frDerEncodeIpv4Prefix 5 tenSlash12.ip = .ok content ∧
      IsBitString frDerDecodeIpv4Prefix tenSlash12.ip content :=
  ((derPrefix_roundTrip_iff 5).1 tenSlash12 (by decide)).mpr (.inr (.inr (by decide)))

def tenSlash8 : IpPrefix .inet where
  ip := { af := .inet, addr := [10, 0, 0, 0], prefixLen := 8 }
  af_eq := rfl
  length_addr := rfl
  prefixLen_le := by decide
  hostBitsZero := by decide

/-- The encoder says that all eight bits of the only byte are unused, and the decoder refuses it. -/
theorem derPrefix_tenSlash8 :
    frDerEncodeIpv4Prefix 5 tenSlash8.ip = .ok [8, 10] ∧
      frDerDecodeIpv4Prefix [8, 10] = .error (.prefixTooLarge .inet 8) ∧
      ¬∃ content, frDerEncodeIpv4Prefix 5 tenSlash8.ip = .ok content ∧
        IsBitString frDerDecodeIpv4Prefix tenSlash8.ip content := by
  refine ⟨rfl, rfl, ?_⟩
  rintro ⟨content, hcontent, unused, data, -, -, -, hdecoded⟩
  cases hcontent
  cases hdecoded

end FreeRadius.Der
