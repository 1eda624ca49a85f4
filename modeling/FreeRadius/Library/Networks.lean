import FreeRadius.Library.TwosComplement

/-!
# Prefixes and networks

A prefix is the first bits of a block of bytes all of whose other bits are zero. The bytes behind
the last one that has a bit of the prefix need not be kept. The addresses that begin with a prefix, as
numbers in network byte order, are an interval, so a network is a subset of another one as the
intervals are.
-/

namespace Library

theorem pow_256 (n : ℕ) : 256 ^ n = 2 ^ (8 * n) := (pow_mul 2 8 n).symm

theorem nboValue_append (a b : List UInt8) :
    nboValue (a ++ b) = nboValue a * 256 ^ b.length + nboValue b := by
  induction a with
  | nil => simp [nboValue]
  | cons x a ih =>
    rw [List.cons_append, nboValue_cons, nboValue_cons, ih, List.length_append, pow_add]
    ring

theorem nboValue_zeros (n : ℕ) : nboValue (List.replicate n 0) = 0 := by
  induction n with
  | zero => rfl
  | succ n ih => rw [List.replicate_succ, nboValue_cons, ih, UInt8.toNat_zero, Nat.zero_mul]

/-- The bits behind the first `p` ones are zero. -/
def HostBitsZero (bytes : List UInt8) (p : ℕ) : Prop :=
  nboValue bytes % 2 ^ (8 * bytes.length - p) = 0

instance (bytes : List UInt8) (p : ℕ) : Decidable (HostBitsZero bytes p) :=
  inferInstanceAs (Decidable (_ = _))

/-- The number of bytes that hold the first `p` bits. -/
def prefixBytes (p : ℕ) : ℕ := (p + 7) / 8

section

variable {bytes : List UInt8} {p : ℕ}

theorem prefixBytes_le (hp : p ≤ 8 * bytes.length) : prefixBytes p ≤ bytes.length := by
  rw [prefixBytes]
  omega

theorem HostBitsZero.drop_eq (h : HostBitsZero bytes p) (hp : p ≤ 8 * bytes.length) :
    bytes.drop (prefixBytes p) = List.replicate (bytes.length - prefixBytes p) 0 := by
  have hle := prefixBytes_le hp
  obtain ⟨rest, hrest⟩ : ∃ rest, rest = bytes.drop (prefixBytes p) := ⟨_, rfl⟩
  have hlen : rest.length = bytes.length - prefixBytes p := by rw [hrest, List.length_drop]
  have hdvd : 256 ^ rest.length ∣ nboValue bytes := by
    have hpow : 256 ^ rest.length ∣ 2 ^ (8 * bytes.length - p) := by
      rw [pow_256]
      refine pow_dvd_pow 2 ?_
      rw [prefixBytes] at hlen hle
      omega
    exact hpow.trans (Nat.dvd_of_mod_eq_zero h)
  -- the number of the rest is below the power that divides it
  have hzero : nboValue rest = 0 := by
    rw [← List.take_append_drop (prefixBytes p) bytes, ← hrest, nboValue_append] at hdvd
    have hrestDvd := (Nat.dvd_add_right (Dvd.intro_left _ rfl)).mp hdvd
    exact Nat.eq_zero_of_dvd_of_lt hrestDvd (nboValue_lt rest)
  rw [← hrest]
  refine nboValue_inj (by rw [hlen, List.length_replicate]) ?_
  rw [hzero, nboValue_zeros]

/-- The block is known from the bytes that hold the prefix. -/
theorem HostBitsZero.take_append (h : HostBitsZero bytes p) (hp : p ≤ 8 * bytes.length) :
    bytes.take (prefixBytes p) ++ List.replicate (bytes.length - prefixBytes p) 0 = bytes := by
  rw [← h.drop_eq hp, List.take_append_drop]

end

/-- The first bits of a number of `n` bytes. -/
def firstBits (n net x : ℕ) : ℕ := x / 2 ^ (8 * n - net)

theorem firstBits_cons_of_le {common : ℕ} (h : common ≤ 8) (x : UInt8) (a : List UInt8) :
    firstBits (a.length + 1) common (nboValue (x :: a)) = x.toNat / 2 ^ (8 - common) := by
  have hpow : 2 ^ (8 * (a.length + 1) - common) = 256 ^ a.length * 2 ^ (8 - common) := by
    rw [pow_256, ← pow_add]
    congr 1
    omega
  rw [firstBits, hpow, ← Nat.div_div_eq_div_mul, nboValue_cons, Nat.add_comm,
    Nat.add_mul_div_right _ _ (by positivity), Nat.div_eq_of_lt (nboValue_lt a), Nat.zero_add]

theorem firstBits_cons_of_ge {common : ℕ} (h : 8 ≤ common) (x : UInt8) {a : List UInt8}
    (hle : common ≤ 8 * (a.length + 1)) :
    firstBits (a.length + 1) common (nboValue (x :: a)) =
      firstBits a.length (common - 8) (nboValue a) + x.toNat * 2 ^ (common - 8) := by
  have hpow : 256 ^ a.length = 2 ^ (common - 8) * 2 ^ (8 * a.length - (common - 8)) := by
    rw [pow_256, ← pow_add]
    congr 1
    omega
  rw [firstBits, firstBits, show 8 * (a.length + 1) - common = 8 * a.length - (common - 8) by omega,
    nboValue_cons, hpow, ← Nat.mul_assoc, Nat.add_comm,
    Nat.add_mul_div_right _ _ (Nat.two_pow_pos _)]

theorem firstBits_div {n c d : ℕ} (hcd : c ≤ d) (hd : d ≤ 8 * n) (v : ℕ) :
    firstBits n d v / 2 ^ (d - c) = firstBits n c v := by
  rw [firstBits, firstBits, Nat.div_div_eq_div_mul, ← pow_add]
  congr 2
  omega

/-- A prefix of addresses of `n` bytes -/
structure Network (n : ℕ) where
  addr : List UInt8
  net : ℕ
  length_addr : addr.length = n
  net_le : net ≤ 8 * n
  hostBitsZero : HostBitsZero addr net

namespace Network

variable {n : ℕ} (a b : Network n)

/-- The numbers of the addresses that begin with the prefix. -/
def addresses : Set ℕ :=
  {x | x < 2 ^ (8 * n) ∧ firstBits n a.net x = firstBits n a.net (nboValue a.addr)}

theorem dvd_nboValue : 2 ^ (8 * n - a.net) ∣ nboValue a.addr := by
  have h := a.hostBitsZero
  rw [HostBitsZero, a.length_addr] at h
  exact Nat.dvd_of_mod_eq_zero h

theorem nboValue_add_le : nboValue a.addr + 2 ^ (8 * n - a.net) ≤ 2 ^ (8 * n) := by
  have hlt := nboValue_lt a.addr
  rw [a.length_addr, pow_256] at hlt
  refine Nat.le_of_lt_add_of_dvd (Nat.add_lt_add_right hlt _) ?_ (pow_dvd_pow 2 (Nat.sub_le _ _))
  exact Nat.dvd_add_self_right.mpr a.dvd_nboValue

theorem firstBits_eq_iff (x : ℕ) :
    firstBits n a.net x = firstBits n a.net (nboValue a.addr) ↔
      x ∈ Set.Ico (nboValue a.addr) (nboValue a.addr + 2 ^ (8 * n - a.net)) := by
  have hpos : 0 < 2 ^ (8 * n - a.net) := Nat.two_pow_pos _
  obtain ⟨c, hc⟩ := a.dvd_nboValue
  rw [firstBits, firstBits, Set.mem_Ico, hc, Nat.mul_div_cancel_left c hpos, Nat.div_eq_iff hpos,
    Nat.mul_comm c]
  omega

theorem addresses_eq :
    a.addresses = Set.Ico (nboValue a.addr) (nboValue a.addr + 2 ^ (8 * n - a.net)) := by
  ext x
  have hle := a.nboValue_add_le
  rw [addresses, Set.mem_ofPred_eq, firstBits_eq_iff, and_iff_right_iff_imp]
  exact fun h => h.2.trans_le hle

theorem subset_iff_le : a.addresses ⊆ b.addresses ↔ nboValue b.addr ≤ nboValue a.addr ∧
    nboValue a.addr + 2 ^ (8 * n - a.net) ≤ nboValue b.addr + 2 ^ (8 * n - b.net) := by
  rw [addresses_eq, addresses_eq]
  exact Set.Ico_subset_Ico_iff (Nat.lt_add_of_pos_right (Nat.two_pow_pos _))

/-- A network is in another one if its prefix begins with the other prefix. -/
theorem subset_iff : a.addresses ⊆ b.addresses ↔ b.net ≤ a.net ∧
    firstBits n b.net (nboValue a.addr) = firstBits n b.net (nboValue b.addr) := by
  have hb := b.net_le
  have hpos : 0 < 2 ^ (8 * n - a.net) := Nat.two_pow_pos _
  rw [subset_iff_le, firstBits_eq_iff, Set.mem_Ico]
  constructor
  · intro h
    have hpow := (Nat.pow_le_pow_iff_right (show 1 < 2 by decide)).mp
      (show 2 ^ (8 * n - a.net) ≤ 2 ^ (8 * n - b.net) by omega)
    exact ⟨by omega, h.1, by omega⟩
  · rintro ⟨hnet, hle, hlt⟩
    have hdvd : 2 ^ (8 * n - a.net) ∣ 2 ^ (8 * n - b.net) := pow_dvd_pow 2 (by omega)
    exact ⟨hle, Nat.le_of_lt_add_of_dvd (Nat.add_lt_add_right hlt _)
      (Nat.dvd_add_self_right.mpr a.dvd_nboValue) (Nat.dvd_add (hdvd.trans b.dvd_nboValue) hdvd)⟩

theorem subset_iff_of_net_eq (h : a.net = b.net) : a.addresses ⊆ b.addresses ↔ a.addr = b.addr := by
  rw [subset_iff_le, h]
  constructor
  · intro hle
    exact nboValue_inj (a.length_addr.trans b.length_addr.symm) (by omega)
  · intro heq
    rw [heq]
    exact ⟨le_rfl, le_rfl⟩

theorem subset_of_common {c : Network n} (ha : c.addresses ⊆ a.addresses)
    (hb : c.addresses ⊆ b.addresses) (h : a.net ≤ b.net) : b.addresses ⊆ a.addresses := by
  rw [subset_iff] at ha hb ⊢
  refine ⟨h, ?_⟩
  rw [← ha.2, ← firstBits_div h b.net_le, ← hb.2, firstBits_div h b.net_le]

theorem net_eq_of_addresses_eq (h : a.addresses = b.addresses) : a.net = b.net :=
  le_antisymm ((b.subset_iff a).mp h.symm.subset).1 ((a.subset_iff b).mp h.subset).1

end Network

end Library
