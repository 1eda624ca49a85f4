import FreeRadius.Inet.Model

/-!
# Comparing prefixes

`fr_value_box_cidr_cmp_op`, where a network is less than another one if it is a part of it.
-/

namespace FreeRadius.Inet

open Library

/-- The operators of comparisons among `fr_token_t` -/
inductive CmpOp where
  | cmpEq
  | ne
  | le
  | lt
  | ge
  | gt
  deriving DecidableEq

/-- The mask of the first `common` bits of a byte. -/
def byteMask (common : ℕ) : UInt32 := ~~~((1 <<< UInt32.ofNat (8 - common)) - 1)

/-- The loop over the bytes, and the bits behind it. -/
def commonBits : ℕ → List UInt8 → List UInt8 → Bool
  | common, x :: a, y :: b =>
    if common = 0 then true
    else if common < 8 then x.toUInt32 &&& byteMask common == y.toUInt32 &&& byteMask common
    else if x ≠ y then false
    else commonBits (common - 8) a b
  -- the mask has no bit of the byte behind the address
  | _, _, _ => true

def frValueBoxCidrCmpOp (op : CmpOp) (aNet : ℕ) (a : List UInt8) (bNet : ℕ) (b : List UInt8) :
    Bool :=
  if aNet = bNet then a = b && (op = .cmpEq || op = .le || op = .ge)
  else
    let common := if aNet < bNet then aNet else bNet
    match op with
    | .cmpEq => false
    | .ne => true
    | .le | .lt => if aNet < bNet then false else commonBits common a b
    | .ge | .gt => if aNet > bNet then false else commonBits common a b

/-- Two operands of a family one of which is a prefix -/
inductive Operands (af : Af) where
  | addrPrefix (a : List.Vector UInt8 af.size) (b : IpPrefix af)
  | prefixAddr (a : IpPrefix af) (b : List.Vector UInt8 af.size)
  | prefixPrefix (a b : IpPrefix af)

/-- The branches of `fr_value_box_cmp_op` with a prefix. -/
def frValueBoxCmpOp {af : Af} (op : CmpOp) : Operands af → Bool
  | .addrPrefix a b =>
    frValueBoxCidrCmpOp op (8 * af.size) a.1 b.ip.prefixLen.toNat b.ip.addr
  | .prefixAddr a b =>
    frValueBoxCidrCmpOp op a.ip.prefixLen.toNat a.ip.addr (8 * af.size) b.1
  | .prefixPrefix a b =>
    frValueBoxCidrCmpOp op a.ip.prefixLen.toNat a.ip.addr b.ip.prefixLen.toNat b.ip.addr

def IpPrefix.network {af : Af} (p : IpPrefix af) : Network af.size where
  addr := p.ip.addr
  net := p.ip.prefixLen.toNat
  length_addr := p.length_addr
  net_le := p.prefixLen_le
  hostBitsZero := p.hostBitsZero

def addrNetwork {af : Af} (a : List.Vector UInt8 af.size) : Network af.size where
  addr := a.1
  net := 8 * af.size
  length_addr := a.2
  net_le := le_rfl
  hostBitsZero := by simp [HostBitsZero, a.2, Nat.mod_one]

def Operands.networks {af : Af} : Operands af → Network af.size × Network af.size
  | addrPrefix a b => (addrNetwork a, b.network)
  | prefixAddr a b => (a.network, addrNetwork b)
  | prefixPrefix a b => (a.network, b.network)

/-- What an operator says of two sets of addresses. -/
def CmpOp.Holds (a b : Set ℕ) : CmpOp → Prop
  | cmpEq => a = b
  | ne => a ≠ b
  | le => a ⊆ b
  | lt => a ⊆ b ∧ a ≠ b
  | ge => b ⊆ a
  | gt => b ⊆ a ∧ b ≠ a

theorem byteMask_eq {common : ℕ} (h : common < 8) (x : UInt8) :
    (x.toUInt32 &&& byteMask common).toNat = x.toNat / 2 ^ (8 - common) * 2 ^ (8 - common) := by
  interval_cases common <;> revert x <;> exact forall_uint8 (by decide)

theorem commonBits_iff {a b : List UInt8} (hlen : b.length = a.length) {common : ℕ}
    (h : common ≤ 8 * a.length) : commonBits common a b = true ↔
      firstBits a.length common (nboValue a) = firstBits a.length common (nboValue b) := by
  induction a generalizing b common with
  | nil =>
    obtain rfl := List.length_eq_zero_iff.mp hlen
    simp [commonBits]
  | cons x a ih =>
    obtain _ | ⟨y, b⟩ := b
    · cases hlen
    have hab : b.length = a.length := Nat.succ.inj hlen
    have hlow := fun c (hc : c ≤ 8) => hab ▸ firstBits_cons_of_le hc y b
    rw [List.length_cons] at h ⊢
    rw [commonBits]
    split_ifs with hzero hlt hne
    · have hx := x.toNat_lt
      have hy := y.toNat_lt
      refine iff_of_true rfl ?_
      rw [hzero, firstBits_cons_of_le (Nat.zero_le 8), hlow 0 (Nat.zero_le 8)]
      omega
    · rw [firstBits_cons_of_le hlt.le, hlow common hlt.le, beq_iff_eq, ← UInt32.toNat_inj,
        byteMask_eq hlt, byteMask_eq hlt]
      exact Nat.mul_left_inj (Nat.two_pow_pos _).ne'
    · -- the first bits tell the first bytes
      rw [false_iff]
      intro heq
      have hbyte := congrArg (· / 2 ^ (common - 8)) heq
      simp only [firstBits_div (not_lt.mp hlt) h, firstBits_cons_of_le le_rfl,
        hlow 8 le_rfl, Nat.sub_self, pow_zero, Nat.div_one] at hbyte
      exact hne (UInt8.toNat_inj.mp hbyte)
    · rw [not_not.mp hne, firstBits_cons_of_ge (not_lt.mp hlt) y h, ← hab,
        firstBits_cons_of_ge (not_lt.mp hlt) y (by omega), Nat.add_right_cancel_iff, hab]
      exact ih hab (by omega)

/-- `a` and `b` are compared as sets, unless `!=` has to tell two networks of one size. -/
theorem frValueBoxCidrCmpOp_iff {n : ℕ} (op : CmpOp) (a b : Network n) :
    (frValueBoxCidrCmpOp op a.net a.addr b.net b.addr = true ↔ op.Holds a.addresses b.addresses) ↔
      ¬(op = .ne ∧ a.net = b.net ∧ a.addr ≠ b.addr) := by
  by_cases hnet : a.net = b.net
  · have hsub := a.subset_iff_of_net_eq b hnet
    have hsup := b.subset_iff_of_net_eq a hnet.symm
    cases op <;> simp [frValueBoxCidrCmpOp, CmpOp.Holds, hnet, Set.Subset.antisymm_iff, hsub, hsup,
      eq_comm]
  have hne : a.addresses ≠ b.addresses := fun h => hnet (a.net_eq_of_addresses_eq b h)
  have hcommon {common : ℕ} (h : common ≤ 8 * n) := commonBits_iff
    (b.length_addr.trans a.length_addr.symm) (h.trans_eq (congrArg (8 * ·) a.length_addr.symm))
  obtain hlt | hlt := Nat.lt_or_gt_of_ne hnet <;> cases op <;>
    simp [frValueBoxCidrCmpOp, CmpOp.Holds, hnet, hlt, hlt.le, hlt.not_ge, hlt.not_gt, hne,
      hne.symm, a.subset_iff b, b.subset_iff a, hcommon a.net_le, hcommon b.net_le,
      a.length_addr, eq_comm]

/-- A comparison of networks is one of sets, unless `!=` has to tell two networks of one size. -/
theorem frValueBoxCmpOp_iff {af : Af} (op : CmpOp) (o : Operands af) :
    (frValueBoxCmpOp op o = true ↔
        op.Holds o.networks.1.addresses o.networks.2.addresses) ↔
      ¬(op = .ne ∧ o.networks.1.net = o.networks.2.net ∧
        o.networks.1.addr ≠ o.networks.2.addr) := by
  have h := frValueBoxCidrCmpOp_iff op o.networks.1 o.networks.2
  cases o <;> exact h

/-- Prefixes are partly ordered, and the prefixes that hold one are a chain, so that there is a longest
match. -/
theorem frValueBoxCmpOp_le_order {af : Af} :
    let le (a b : IpPrefix af) := frValueBoxCmpOp .le (.prefixPrefix a b) = true
    ∀ a b c, (le a b → le b a → a.ip = b.ip) ∧ (le a b → le b c → le a c) ∧
      (le c a → le c b → le a b ∨ le b a) := by
  intro le a b c
  have hle (p q : IpPrefix af) : le p q ↔ p.network.addresses ⊆ q.network.addresses :=
    (frValueBoxCidrCmpOp_iff .le p.network q.network).mpr (by simp)
  simp only [hle]
  refine ⟨fun hab hba => ?_, Set.Subset.trans, fun ha hb => ?_⟩
  · have hnet := a.network.net_eq_of_addresses_eq b.network (hab.antisymm hba)
    have haddr := (a.network.subset_iff_of_net_eq b.network hnet).mp hab
    exact FrIpaddr.ext (a.af_eq.trans b.af_eq.symm) haddr (UInt8.toNat_inj.mp hnet)
  · obtain h | h := Nat.le_total a.network.net b.network.net
    · exact .inr (a.network.subset_of_common b.network ha hb h)
    · exact .inl (b.network.subset_of_common a.network hb ha h)

def twentyFourSlash12 : IpPrefix .inet where
  ip := { af := .inet, addr := [24, 0, 0, 0], prefixLen := 12 }
  af_eq := rfl
  length_addr := rfl
  prefixLen_le := by decide
  hostBitsZero := by decide

/-- 10/12 != 24/12 is false. -/
theorem frValueBoxCmpOp_ne_of_tenSlash12 :
    frValueBoxCmpOp .ne (.prefixPrefix tenSlash12 twentyFourSlash12) = false ∧
      tenSlash12.network.addresses ≠ twentyFourSlash12.network.addresses := by
  refine ⟨by decide, fun h => ?_⟩
  have haddr := (tenSlash12.network.subset_iff_of_net_eq twentyFourSlash12.network rfl).mp h.subset
  exact absurd haddr (by decide)

end FreeRadius.Inet
