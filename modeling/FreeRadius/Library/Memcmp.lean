import FreeRadius.Library.TwosComplement

/-!
# Comparing bytes

`memcmp` on memory of which the beginning is known, where what is not known counts as zero: with
enough bytes it compares octet strings that are padded with zeros. Strings that are ordered by
their length first need no padding.
-/

namespace Library

open List

/-- The order of the first `n` bytes. -/
def memcmp : ℕ → List UInt8 → List UInt8 → Ordering
  | 0, _, _ => .eq
  | n + 1, a, b =>
    if a.headD 0 < b.headD 0 then .lt
    else if b.headD 0 < a.headD 0 then .gt
    else memcmp n a.tail b.tail

section Memcmp

variable {a b : List UInt8} {n : ℕ}

theorem memcmp_swap (n : ℕ) (a b : List UInt8) : (memcmp n a b).swap = memcmp n b a := by
  induction n generalizing a b with
  | zero => rfl
  | succ n ih =>
    rw [memcmp, memcmp]
    by_cases hlt : a.headD 0 < b.headD 0
    · rw [if_pos hlt, if_neg (UInt8.lt_asymm hlt), if_pos hlt]
      rfl
    rw [if_neg hlt]
    by_cases hgt : b.headD 0 < a.headD 0
    · rw [if_pos hgt, if_pos hgt]
      rfl
    · rw [if_neg hgt, if_neg hgt, if_neg hlt]
      exact ih _ _

theorem memcmp_self (n : ℕ) (a : List UInt8) : memcmp n a a = .eq := by
  induction n generalizing a with
  | zero => rfl
  | succ n ih => rw [memcmp, if_neg (UInt8.lt_irrefl _), if_neg (UInt8.lt_irrefl _), ih]

theorem memcmp_succ_ne_gt :
    memcmp (n + 1) a b ≠ .gt ↔
      a.headD 0 < b.headD 0 ∨ a.headD 0 = b.headD 0 ∧ memcmp n a.tail b.tail ≠ .gt := by
  rw [memcmp]
  by_cases hlt : a.headD 0 < b.headD 0
  · rw [if_pos hlt]
    exact iff_of_true (by decide) (.inl hlt)
  rw [if_neg hlt, or_iff_right hlt]
  by_cases hgt : b.headD 0 < a.headD 0
  · rw [if_pos hgt]
    exact iff_of_false (fun h => h rfl) fun h => UInt8.lt_irrefl _ (h.1 ▸ hgt)
  · have heq : a.headD 0 = b.headD 0 :=
      UInt8.le_antisymm (UInt8.not_lt.mp hgt) (UInt8.not_lt.mp hlt)
    rw [if_neg hgt, and_iff_right heq]

theorem memcmp_ne_gt_trans {c : List UInt8} (hab : memcmp n a b ≠ .gt)
    (hbc : memcmp n b c ≠ .gt) : memcmp n a c ≠ .gt := by
  induction n generalizing a b c with
  | zero => exact hab
  | succ n ih =>
    rw [memcmp_succ_ne_gt] at hab hbc ⊢
    obtain hab | ⟨hab, htab⟩ := hab
    · obtain hbc | ⟨hbc, -⟩ := hbc
      · exact .inl (UInt8.lt_trans hab hbc)
      · exact .inl (hbc ▸ hab)
    · obtain hbc | ⟨hbc, htbc⟩ := hbc
      · exact .inl (hab ▸ hbc)
      · exact .inr ⟨hab.trans hbc, ih htab htbc⟩

theorem memcmp_total (n : ℕ) (a b : List UInt8) : memcmp n a b ≠ .gt ∨ memcmp n b a ≠ .gt := by
  rw [← memcmp_swap n a b]
  cases memcmp n a b with
  | lt => exact .inl (by decide)
  | eq => exact .inl (by decide)
  | gt => exact .inr (by decide)

/-- The beginning of a memory does not depend on what follows. -/
theorem memcmp_append (ha : n ≤ a.length) (hb : n ≤ b.length)
    (s t : List UInt8) : memcmp n (a ++ s) (b ++ t) = memcmp n a b := by
  induction n generalizing a b with
  | zero => rfl
  | succ n ih =>
    rcases a with _ | ⟨x, a⟩
    · cases ha
    cases b with
    | nil => cases hb
    | cons y b =>
      have hrest := ih (Nat.le_of_succ_le_succ ha) (Nat.le_of_succ_le_succ hb)
      rw [memcmp, memcmp]
      change (if _ then _ else if _ then _ else memcmp n (a ++ s) (b ++ t)) = _
      rw [hrest]
      rfl

theorem memcmp_append_left (p a b : List UInt8) (n : ℕ) :
    memcmp (p.length + n) (p ++ a) (p ++ b) = memcmp n a b := by
  induction p with
  | nil => rw [length_nil, Nat.zero_add, nil_append, nil_append]
  | cons x p ih =>
    rw [length_cons, Nat.succ_add, memcmp]
    change (if x < x then _ else if x < x then _ else memcmp (p.length + n) (p ++ a) (p ++ b)) = _
    rw [if_neg (UInt8.lt_irrefl x), if_neg (UInt8.lt_irrefl x), ih]

theorem memcmp_eq_iff (hlen : a.length = b.length) : memcmp a.length a b = .eq ↔ a = b := by
  constructor
  · intro h
    induction a generalizing b with
    | nil => exact (List.length_eq_zero_iff.mp hlen.symm).symm
    | cons x a ih =>
      rcases b with _ | ⟨y, b⟩
      · cases hlen
      change (if x < y then _ else if y < x then _ else memcmp a.length a b) = .eq at h
      split at h
      · cases h
      next hlt =>
      split at h
      · cases h
      · next hgt =>
        rw [UInt8.le_antisymm (UInt8.not_lt.mp hgt) (UInt8.not_lt.mp hlt), ih (Nat.succ.inj hlen) h]
  · rintro rfl
    exact memcmp_self _ _

/-- The first byte in which the two differ is smaller in the first. -/
def FirstDiff (a b : List UInt8) : Prop :=
  ∃ p x y s t, a = p ++ x :: s ∧ b = p ++ y :: t ∧ x < y

theorem FirstDiff.append (h : FirstDiff a b) (s t : List UInt8) : FirstDiff (a ++ s) (b ++ t) := by
  obtain ⟨p, x, y, s', t', rfl, rfl, hxy⟩ := h
  exact ⟨p, x, y, s' ++ s, t' ++ t, by rw [append_assoc, cons_append],
    by rw [append_assoc, cons_append], hxy⟩

theorem FirstDiff.append_left (h : FirstDiff a b) (q : List UInt8) :
    FirstDiff (q ++ a) (q ++ b) := by
  obtain ⟨p, x, y, s, t, rfl, rfl, hxy⟩ := h
  exact ⟨q ++ p, x, y, s, t, by rw [append_assoc], by rw [append_assoc], hxy⟩

/-- What decides is in both, so that it does not matter what follows. -/
theorem FirstDiff.memcmp_append (h : FirstDiff a b) (hn : a.length ≤ n)
    (s t : List UInt8) : memcmp n (a ++ s) (b ++ t) = .lt := by
  obtain ⟨p, x, y, s', t', rfl, rfl, hxy⟩ := h
  obtain ⟨k, rfl⟩ : ∃ k, n = p.length + (k + 1) := by
    rw [length_append, length_cons] at hn
    exact ⟨n - p.length - 1, by omega⟩
  rw [append_assoc, append_assoc, memcmp_append_left, memcmp]
  exact if_pos hxy

theorem nboBytes_mod (w n : ℕ) : nboBytes w (n % 256 ^ w) = nboBytes w n := by
  refine nboValue_inj (by rw [length_nboBytes, length_nboBytes]) ?_
  rw [nboValue, foldl_nboBytes, nboValue, foldl_nboBytes, Nat.mod_mod]

/-- Numbers of one width are ordered as their bytes are. -/
theorem firstDiff_nboBytes {w m : ℕ} (hn : n < 256 ^ w) (h : m < n) :
    FirstDiff (nboBytes w m) (nboBytes w n) := by
  induction w generalizing m n with
  | zero => omega
  | succ w ih =>
    have hpos : 0 < 256 ^ w := Nat.pow_pos (by decide)
    have hqn : n / 256 ^ w < 256 := by
      rw [Nat.div_lt_iff_lt_mul hpos, Nat.mul_comm, ← pow_succ]
      exact hn
    have hle : m / 256 ^ w ≤ n / 256 ^ w := Nat.div_le_div_right h.le
    rw [nboBytes, nboBytes]
    by_cases hq : m / 256 ^ w = n / 256 ^ w
    · -- the first bytes agree, and the others are those of the remainders
      have hmod : m % 256 ^ w < n % 256 ^ w := by
        have hm := Nat.div_add_mod m (256 ^ w)
        have hn := Nat.div_add_mod n (256 ^ w)
        rw [hq] at hm
        omega
      have hrest := ih (Nat.mod_lt n hpos) hmod
      rw [nboBytes_mod, nboBytes_mod] at hrest
      rw [hq]
      exact hrest.append_left [_]
    · refine ⟨[], _, _, _, _, rfl, rfl, ?_⟩
      rw [UInt8.lt_iff_toNat_lt, UInt8.toNat_ofNat', UInt8.toNat_ofNat', Nat.mod_eq_of_lt hqn,
        Nat.mod_eq_of_lt (by omega)]
      omega

end Memcmp

section Shortlex

/-- The shorter string is first, and strings of one length are ordered by their bytes. -/
def ShortlexLe (a b : List UInt8) : Prop :=
  a.length < b.length ∨ a.length = b.length ∧ memcmp a.length a b ≠ .gt

instance : DecidableRel ShortlexLe := fun _ _ => inferInstanceAs (Decidable (_ ∨ _))

instance : Std.Total ShortlexLe where
  total a b := by
    obtain hlt | heq | hgt := Nat.lt_trichotomy a.length b.length
    · exact .inl (.inl hlt)
    · obtain h | h := memcmp_total a.length a b
      · exact .inl (.inr ⟨heq, h⟩)
      · exact .inr (.inr ⟨heq.symm, heq ▸ h⟩)
    · exact .inr (.inl hgt)

instance : IsTrans (List UInt8) ShortlexLe where
  trans a b c hab hbc := by
    obtain hab | ⟨hab, hcab⟩ := hab
    · obtain hbc | ⟨hbc, -⟩ := hbc
      · exact .inl (hab.trans hbc)
      · exact .inl (hbc ▸ hab)
    · obtain hbc | ⟨hbc, hcbc⟩ := hbc
      · exact .inl (hab ▸ hbc)
      · exact .inr ⟨hab.trans hbc, memcmp_ne_gt_trans hcab (hab ▸ hcbc)⟩

instance : Std.Antisymm ShortlexLe where
  antisymm a b hab hba := by
    obtain hab | ⟨hlen, hab⟩ := hab
    · obtain hba | ⟨hba, -⟩ := hba
      · omega
      · omega
    obtain hba | ⟨-, hba⟩ := hba
    · omega
    refine (memcmp_eq_iff hlen).mp ?_
    rw [← hlen, ← memcmp_swap] at hba
    cases h : memcmp a.length a b with
    | lt => rw [h] at hba; exact absurd rfl hba
    | eq => rfl
    | gt => exact absurd h hab

/-- A multiset of strings has one sorted list. -/
theorem insertionSort_eq_of_perm {l l' : List (List UInt8)} (h : l.Perm l') :
    l.insertionSort ShortlexLe = l'.insertionSort ShortlexLe :=
  List.Perm.eq_of_pairwise' (pairwise_insertionSort _ _) (pairwise_insertionSort _ _)
    (((perm_insertionSort _ l).trans h).trans (perm_insertionSort _ l').symm)

end Shortlex

end Library
