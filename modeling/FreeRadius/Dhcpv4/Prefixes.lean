import FreeRadius.Dhcpv4.Options

/-!
# Prefixes in options

The two formats of an IPv4 prefix, and that of an IPv6 prefix, which the decoder always takes to be
too long.
-/

namespace FreeRadius.Dhcpv4

open Library Inet List

section Masks

theorem and_mask {x n : ℕ} (hx : x < 2 ^ 32) (hhost : x % 2 ^ (32 - n) = 0) :
    x &&& (2 ^ 32 - 1) <<< (32 - n) % 2 ^ 32 = x := by
  apply Nat.eq_of_testBit_eq
  intro i
  rw [Nat.testBit_and, Nat.testBit_mod_two_pow, Nat.testBit_shiftLeft, Nat.testBit_two_pow_sub_one]
  rcases hbit : x.testBit i with _ | _
  · rfl
  have hlow : 32 - n ≤ i := by
    by_contra hlt
    have hmod := Nat.testBit_mod_two_pow x (32 - n) i
    rw [hhost, hbit] at hmod
    simp at hmod
    omega
  have hhigh : i < 32 := by
    by_contra hge
    rw [Nat.testBit_lt_two_pow (hx.trans_le (Nat.pow_le_pow_right (by decide) (by omega)))] at hbit
    cases hbit
  simp only [Bool.true_and, Bool.and_eq_true, decide_eq_true_eq]
  omega

theorem maskBits_le_iff {rounds m k : ℕ} (hm : m < 2 ^ 32) :
    maskBits rounds m ≤ k ↔ rounds ≤ k ∨ m * 2 ^ k % 2 ^ 32 = 0 := by
  induction rounds generalizing m k with
  | zero => simp [maskBits]
  | succ rounds ih =>
    rw [maskBits]
    split
    · next hzero => simp [hzero]
    next hne =>
    cases k with
    | zero =>
      rw [pow_zero, mul_one, Nat.mod_eq_of_lt hm]
      omega
    | succ k =>
      rw [Nat.add_le_add_iff_right, ih (Nat.mod_lt _ (by decide)), Nat.add_le_add_iff_right,
        Nat.mod_mul_mod, mul_assoc, ← pow_succ' 2 k]

/-- The loop counts 32 bits if the lowest one is set. -/
theorem maskBits_eq_iff {m : ℕ} (hm : m < 2 ^ 32) : maskBits 32 m = 32 ↔ m % 2 = 1 := by
  have hle := @maskBits_le_iff 32 m 31 hm
  have hbound := (@maskBits_le_iff 32 m 32 hm).mpr (.inl le_rfl)
  omega

theorem maskBits_splitMask (undef : UInt32) : ∀ n < 32, maskBits 32 (splitMask undef n) = n := by
  intro n hn
  rw [splitMask, if_pos hn]
  revert n
  decide

end Masks

section Decode

variable (p : IpPrefix .inet)

theorem nboValue_addr_lt : nboValue p.ip.addr < 2 ^ 32 := by
  have h := nboValue_lt p.ip.addr
  rwa [p.length_addr] at h

theorem nboBytes_addr : nboBytes 4 (nboValue p.ip.addr) = p.ip.addr := by
  apply nboValue_inj
  · rw [length_nboBytes, p.length_addr]
    rfl
  · exact nboValue_nboBytes (nboValue_addr_lt p)

theorem maskedAddr_eq : maskedAddr (nboValue p.ip.addr) p.ip.prefixLen.toNat = p.ip.addr := by
  have hhost := p.hostBitsZero
  rw [HostBitsZero, p.length_addr] at hhost
  rw [maskedAddr, and_mask (nboValue_addr_lt p) hhost, nboBytes_addr]

theorem ip_eq_zero (h : p.ip.prefixLen = 0) :
    p.ip = { af := .inet, addr := [0, 0, 0, 0], prefixLen := 0 } := by
  have hhost := p.hostBitsZero
  have hzero : nboValue p.ip.addr = 0 := by
    rw [HostBitsZero, p.length_addr, h] at hhost
    change _ % 2 ^ 32 = 0 at hhost
    rwa [Nat.mod_eq_of_lt (nboValue_addr_lt p)] at hhost
  have haddr := nboBytes_addr p
  rw [hzero] at haddr
  exact FrIpaddr.ext p.af_eq haddr.symm h

theorem ip_eq :
    FrIpaddr.mk .inet (maskedAddr (nboValue p.ip.addr) p.ip.prefixLen.toNat) p.ip.prefixLen = p.ip :=
  FrIpaddr.ext p.af_eq.symm (maskedAddr_eq p) rfl

theorem splitMask_lt (undef : UInt32) (n : ℕ) : splitMask undef n < 2 ^ 32 := by
  rw [splitMask]
  omega

theorem decodeValue_ipv4Prefix (number : UInt8) (format : PrefixFormat) (first : UInt8)
    (rest : List UInt8) :
    decodeValue number (.ipv4Prefix format) (first :: rest) =
      ((decodePrefix (.ipv4Prefix format) first rest).map (.value number ∘ .ip)).getD
        (.raw number (first :: rest)) := rfl

theorem decode_split (undef : UInt32) (number : UInt8) :
    decodeValue number (.ipv4Prefix .split) (encodeValue undef (.ipv4Prefix .split) (.ip p.ip)) =
      let mask := splitMask undef p.ip.prefixLen.toNat
      .value number (.ip (if mask = 0 then { af := .inet, addr := [0, 0, 0, 0], prefixLen := 0 }
        else { af := .inet, addr := maskedAddr (nboValue p.ip.addr) (maskBits 32 mask),
               prefixLen := UInt8.ofNat (maskBits 32 mask) })) := by
  obtain ⟨mask, hmask⟩ : ∃ mask, mask = splitMask undef p.ip.prefixLen.toNat := ⟨_, rfl⟩
  have hlt : mask < 256 ^ 4 := hmask ▸ splitMask_lt undef _
  obtain ⟨a, b, c, d, haddr⟩ : ∃ a b c d, p.ip.addr = [a, b, c, d] :=
    List.length_eq_four.mp p.length_addr
  rw [encodeValue, ← hmask, haddr, cons_append, decodeValue_ipv4Prefix, decodePrefix]
  have hdrop : ((b :: c :: d :: nboBytes 4 mask).drop 3).take 4 = nboBytes 4 mask := rfl
  simp only [cons_append, nil_append, length_cons, length_nboBytes, hdrop, nboValue_nboBytes hlt]
  rw [if_neg (by decide)]
  split <;> rfl

theorem decode_split_iff (undef : UInt32) (number : UInt8) :
    decodeValue number (.ipv4Prefix .split) (encodeValue undef (.ipv4Prefix .split) (.ip p.ip)) =
        .value number (.ip p.ip) ↔ p.ip.prefixLen.toNat < 32 ∨ undef.toNat % 2 = 0 := by
  have hle : p.ip.prefixLen.toNat ≤ 32 := p.prefixLen_le
  have hundef := undef.toNat_lt
  rw [decode_split]
  simp only [Pair.value.injEq, Value.ip.injEq, true_and]
  by_cases hn : p.ip.prefixLen.toNat < 32
  · have hbits := maskBits_splitMask undef _ hn
    refine iff_of_true ?_ (.inl hn)
    split
    · next hmask =>
      rw [hmask] at hbits
      rw [ip_eq_zero p (UInt8.toNat_inj.mp hbits.symm)]
    · rw [hbits, UInt8.ofNat_toNat, ip_eq p]
  have hlen : p.ip.prefixLen.toNat = 32 := by omega
  have hmask : splitMask undef p.ip.prefixLen.toNat = 2 ^ 32 - 1 - undef.toNat := by
    rw [splitMask, if_neg hn]
  have hbits := @maskBits_eq_iff (2 ^ 32 - 1 - undef.toNat) (by omega)
  have hbound := (@maskBits_le_iff 32 (2 ^ 32 - 1 - undef.toNat) 32 (by omega)).mpr (.inl le_rfl)
  rw [or_iff_right hn, hmask]
  split
  · next hzero =>
    refine iff_of_false (fun heq => ?_) (by omega)
    rw [← heq] at hlen
    cases hlen
  constructor
  · intro heq
    have hprefix := congrArg (·.prefixLen.toNat) heq
    rw [UInt8.toNat_ofNat_of_lt' (Nat.lt_of_le_of_lt hbound (by decide))] at hprefix
    omega
  · intro heven
    have hall : maskBits 32 (2 ^ 32 - 1 - undef.toNat) = p.ip.prefixLen.toNat := by omega
    rw [hall, UInt8.ofNat_toNat, ip_eq p]

theorem decode_bits (undef : UInt32) (number : UInt8) :
    decodeValue number (.ipv4Prefix .bits) (encodeValue undef (.ipv4Prefix .bits) (.ip p.ip)) =
      .value number (.ip p.ip) := by
  have hle : p.ip.prefixLen.toNat ≤ 32 := p.prefixLen_le
  obtain ⟨k, hk⟩ : ∃ k, k = prefixBytes p.ip.prefixLen.toNat := ⟨_, rfl⟩
  have hshift : (p.ip.prefixLen.toNat + 0x07) >>> 3 = k := by
    rw [hk, prefixBytes, Nat.shiftRight_eq_div_pow]
  have htake : (p.ip.addr.take k).length = k := hk ▸ p.length_take_addr
  rw [encodeValue, hshift, decodeValue_ipv4Prefix, decodePrefix, hshift, htake, if_neg, if_neg (by omega)]
  · split
    · next hzero => rw [ip_eq_zero p hzero]; rfl
    next hne =>
    have hpos : p.ip.prefixLen.toNat ≠ 0 := fun h => hne (UInt8.toNat_inj.mp h)
    have hbytes : (if p.ip.prefixLen > 24 then 4 else if p.ip.prefixLen > 16 then 3
        else if p.ip.prefixLen > 8 then 2 else 1) = k := by
      simp only [hk, prefixBytes, gt_iff_lt, UInt8.lt_iff_toNat_lt, UInt8.reduceToNat]
      split_ifs <;> omega
    -- the bytes that are not sent are zero
    have hvalue : nboValue (p.ip.addr.take k) <<< (8 * (4 - k)) = nboValue p.ip.addr := by
      have haddr := p.addr_eq
      rw [← hk] at haddr
      conv_rhs => rw [← haddr, nboValue_append, nboValue_zeros, length_replicate]
      rw [Nat.shiftLeft_eq, pow_mul, Nat.add_zero]
      rfl
    dsimp only
    rw [hbytes, take_take, min_self, hvalue, ip_eq p]
    rfl
  · simp only [gt_iff_lt, UInt8.lt_iff_toNat_lt, UInt8.reduceToNat]
    omega

end Decode

/-- An IPv4 prefix of a split attribute goes through the encoder and the decoder unless it has the
length 32 and the undefined shift has an odd value. One of bits always does, and an IPv6 prefix
never does. -/
theorem dhcpv4Prefix_roundTrip_iff (undef : UInt32) (dict : UInt8 → Option DaType) (rounds : ℕ)
    (mem : List UInt8) {number : UInt8} (hzero : number ≠ 0) (hend : number ≠ 255) :
    (∀ format (p : IpPrefix .inet), dict number = some (.ipv4Prefix format) → 18 ≤ mem.length →
      (OptionRoundTrips undef dict rounds mem number (.value number (.ip p.ip)) ↔
        format = .bits ∨ p.ip.prefixLen.toNat < 32 ∨ undef.toNat % 2 = 0)) ∧
    ∀ p : IpPrefix .inet6, dict number = some .ipv6Prefix → 36 ≤ mem.length →
      ¬OptionRoundTrips undef dict rounds mem number (.value number (.ip p.ip)) := by
  constructor
  · intro format p hdict hmem
    have haddr : p.ip.addr.length = 4 := p.length_addr
    have hlen : (encodeValue undef (.ipv4Prefix format) (.ip p.ip)).length ≤ 8 := by
      cases format with
      | split => simp [encodeValue, haddr]
      | bits =>
        rw [encodeValue, length_cons, length_take]
        omega
    rw [optionRoundTrips_value_iff hdict ⟨by simp, by simp⟩ hzero hend rfl (hlen.trans (by decide))
      (by omega)]
    cases format with
    | split => simpa using decode_split_iff p undef number
    | bits => exact iff_of_true (decode_bits p undef number) (.inl rfl)
  · intro p hdict hmem
    have haddr : p.ip.addr.length = 16 := p.length_addr
    have hdata : encodeValue undef .ipv6Prefix (.ip p.ip) = p.ip.prefixLen :: p.ip.addr := rfl
    have hlen : (p.ip.prefixLen :: p.ip.addr).length = 17 := congrArg (· + 1) haddr
    -- the exact check does not count the byte of the length
    have hraw : decodeValue number .ipv6Prefix (p.ip.prefixLen :: p.ip.addr) =
        .raw number (p.ip.prefixLen :: p.ip.addr) := by
      simp [decodeValue, decodePrefix, haddr]
    rw [optionRoundTrips_value_iff hdict ⟨by simp, by simp⟩ hzero hend hdata (hlen.le.trans (by decide))
      (by omega), hraw]
    simp

theorem dhcpv4Prefix_roundTrip_tenSlash12 :
    OptionRoundTrips 0 (fun _ => some (.ipv4Prefix .split)) 0 (replicate 20 0) 213
      (.value 213 (.ip tenSlash12.ip)) :=
  ((dhcpv4Prefix_roundTrip_iff 0 _ 0 _ (by decide) (by decide)).1 .split tenSlash12 rfl
    (by decide)).mpr (.inr (.inl (by decide)))

def docPrefix : IpPrefix .inet6 where
  ip := { af := .inet6, addr := [0x20, 1, 0xd, 0xb8, 0, 0, 0, 0, 0, 0, 0, 0, 0, 0, 0, 0], prefixLen := 32 }
  af_eq := rfl
  length_addr := rfl
  prefixLen_le := by decide
  hostBitsZero := by decide

/-- The 17 bytes of an IPv6 prefix are decoded as a raw attribute. -/
theorem dhcpv4Prefix_ipv6_raw :
    frDhcpv4EncodeOption 0 (fun _ => some .ipv6Prefix) 0 (replicate 36 0)
        (.value 213 (.ip docPrefix.ip)) =
      some (some (213 :: 17 :: 32 :: docPrefix.ip.addr, replicate 17 0)) ∧
    frDhcpv4DecodeOption (fun _ => some .ipv6Prefix) (213 :: 17 :: 32 :: docPrefix.ip.addr) =
      some (19, [.raw 213 (32 :: docPrefix.ip.addr)]) := by
  decide

end FreeRadius.Dhcpv4
