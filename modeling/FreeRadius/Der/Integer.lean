import FreeRadius.Der.Model

/-!
# DER integers

`fr_der_encode_integer` writes the eight bytes of the value without those that are redundant at the
beginning. `fr_der_decode_integer` accepts just what is written this way.
-/

namespace FreeRadius.Der

open Cbor Library List

section Writing

variable {out : List UInt8} {room : ℕ}

/-- The next bytes that the encoder's loop takes from the top of the value. -/
def topBytes : ℕ → UInt64 → List UInt8
  | 0, _ => []
  | n + 1, value => (value >>> 56).toUInt8 :: topBytes n (value <<< 8)

theorem writeAll_nil (h : out.length ≤ room) : writeAll room out [] = .ok out := by
  rw [writeAll, append_nil, if_pos h]

variable {α : Type} {b : UInt8} {bytes : List UInt8}

theorem dbuffIn_bind {f : List UInt8 → Except DerError α} {g : List UInt8 → α}
    (h : (out ++ [b]).length ≤ room → f (out ++ [b]) = (writeAll room (out ++ [b]) bytes).map g) :
    (dbuffIn room out b).bind f = (writeAll room out (b :: bytes)).map g := by
  rw [dbuffIn]
  split
  · next hlt =>
    have hle : (out ++ [b]).length ≤ room := by rw [length_append]; exact hlt
    calc f (out ++ [b]) = (writeAll room (out ++ [b]) bytes).map g := h hle
      _ = (writeAll room out (b :: bytes)).map g := by
        rw [writeAll, writeAll, append_assoc, singleton_append]
  · next hge =>
    have hfull : ¬(out ++ b :: bytes).length ≤ room := by
      rw [length_append, length_cons]
      omega
    rw [writeAll, if_neg hfull]
    rfl

theorem except_map_id {ε : Type} (x : Except ε α) : x.map id = x := by cases x <;> rfl

theorem dbuffIn_bind_writeAll {f : List UInt8 → Except DerError (List UInt8)}
    (h : (out ++ [b]).length ≤ room → f (out ++ [b]) = writeAll room (out ++ [b]) bytes) :
    (dbuffIn room out b).bind f = writeAll room out (b :: bytes) := by
  rw [dbuffIn_bind fun hle => by rw [h hle, except_map_id], except_map_id]

theorem and_0x80_ne_zero (b : UInt8) : b &&& 0x80 ≠ 0 ↔ 0x80 ≤ b :=
  forall_uint8 (P := fun b => b &&& 0x80 ≠ 0 ↔ 0x80 ≤ b) (by decide) b

theorem shiftRight_7_eq_zero (b : UInt8) : b >>> 7 = 0 ↔ b < 0x80 :=
  forall_uint8 (P := fun b => b >>> 7 = 0 ↔ b < 0x80) (by decide) b

theorem encoder_redundant_iff (firstOctet byte : UInt8) :
    (firstOctet = 0xff ∧ byte &&& 0x80 ≠ 0 ∨ firstOctet = 0x00 ∧ byte >>> 7 = 0) ↔
      Redundant firstOctet byte := by
  rw [and_0x80_ne_zero, shiftRight_7_eq_zero, Redundant]

/-- Once two octets are written, the others follow. -/
theorem encodeIntegerLoop_written (rounds : ℕ) (value : UInt64) (firstOctet : UInt8)
    {len : ℕ} (hlen : 2 ≤ len) (hroom : out.length ≤ room) :
    encodeIntegerLoop room rounds value firstOctet len out =
      writeAll room out (topBytes rounds value) := by
  induction rounds generalizing value len out with
  | zero => rw [encodeIntegerLoop, topBytes, writeAll_nil hroom]
  | succ rounds ih =>
    rw [encodeIntegerLoop, if_neg (by omega), if_neg (by omega), topBytes]
    exact dbuffIn_bind_writeAll fun hle => ih _ (by omega) hle

/-- While one octet is held back, it is dropped if it is redundant. -/
theorem encodeIntegerLoop_held (room rounds : ℕ) (value : UInt64) (firstOctet : UInt8)
    (out : List UInt8) :
    encodeIntegerLoop room (rounds + 1) value firstOctet 1 out =
      writeAll room out (shorten (firstOctet :: topBytes (rounds + 1) value)) := by
  induction rounds generalizing value firstOctet with
  | zero =>
    have hiff := encoder_redundant_iff firstOctet (value >>> 56).toUInt8
    rw [encodeIntegerLoop, topBytes, topBytes, shorten, if_neg (by decide), if_pos rfl, if_pos rfl]
    split
    · next h =>
      rw [if_pos (hiff.mp h), shorten]
      · exact dbuffIn_bind_writeAll fun hle => (writeAll_nil hle).symm
      · intro a b bytes h
        cases h
    · next h =>
      rw [if_neg fun hredundant => h (hiff.mpr hredundant)]
      exact dbuffIn_bind_writeAll fun _ =>
        dbuffIn_bind_writeAll fun hle => (writeAll_nil hle).symm
  | succ rounds ih =>
    have hiff := encoder_redundant_iff firstOctet (value >>> 56).toUInt8
    rw [encodeIntegerLoop, topBytes, if_neg (by decide), if_pos rfl,
      if_neg (Nat.succ_ne_zero rounds), shorten]
    split
    · next h => rw [if_pos (hiff.mp h), ih]
    next h =>
    rw [if_neg fun hredundant => h (hiff.mpr hredundant)]
    exact dbuffIn_bind_writeAll fun _ => dbuffIn_bind_writeAll fun hle =>
      encodeIntegerLoop_written _ _ _ le_rfl hle

/-- The octets that `fr_der_encode_integer` writes if there is room. -/
def derBytes (v : Int64) : List UInt8 := shorten (topBytes 8 v.toUInt64)

theorem frDerEncodeInteger_eq (room : ℕ) (v : Int64) :
    frDerEncodeInteger room (.int64 v) =
      if (derBytes v).length ≤ room then .ok (derBytes v) else .error .noRoom := by
  rw [frDerEncodeInteger, encodeIntegerLoop, if_pos rfl, encodeIntegerLoop_held]
  rfl

end Writing

section Values

theorem length_topBytes (n : ℕ) (value : UInt64) : (topBytes n value).length = n := by
  induction n generalizing value with
  | zero => rfl
  | succ n ih => rw [topBytes, length_cons, ih]

theorem toNat_top (value : UInt64) : (value >>> 56).toUInt8.toNat = value.toNat / 2 ^ 56 := by
  have hlt : value.toNat < 2 ^ 64 := value.toNat_lt
  have hshift : (value >>> 56).toNat = value.toNat / 2 ^ 56 := by
    rw [UInt64.toNat_shiftRight, Nat.shiftRight_eq_div_pow]
    rfl
  rw [UInt64.toNat_toUInt8, hshift]
  omega

theorem toNat_shiftLeft_8 (value : UInt64) : (value <<< 8).toNat = value.toNat * 256 % 2 ^ 64 := by
  rw [UInt64.toNat_shiftLeft, Nat.shiftLeft_eq]
  rfl

theorem nboValue_topBytes {n : ℕ} (hn : n ≤ 8) (value : UInt64) :
    nboValue (topBytes n value) = value.toNat / 256 ^ (8 - n) := by
  induction n generalizing value with
  | zero =>
    have hlt : value.toNat < 2 ^ 64 := value.toNat_lt
    exact (Nat.div_eq_of_lt (by omega)).symm
  | succ n ih =>
    obtain ⟨k, hk⟩ : ∃ k, 7 = n + k := ⟨7 - n, by omega⟩
    have hdrop : value.toNat * 256 % 2 ^ 64 = value.toNat % 2 ^ 56 * 256 := by omega
    have hpow : (2 : ℕ) ^ 56 = 256 ^ k * 256 ^ n := by
      rw [← pow_add, Nat.add_comm k n, ← hk]
      norm_num
    have hpos : 0 < 256 ^ k := by positivity
    have h8 : 8 - n = k + 1 := by omega
    have h7 : 8 - (n + 1) = k := by omega
    rw [topBytes, nboValue_cons, length_topBytes, ih (by omega), toNat_top, toNat_shiftLeft_8, hdrop,
      h8, h7, pow_succ 256 k, Nat.mul_div_mul_right _ _ (by decide : 0 < 256)]
    -- the quotient of the upper and of the lower part
    have hsplit : value.toNat = value.toNat % 2 ^ 56 + 256 ^ k * (256 ^ n * (value.toNat / 2 ^ 56)) := by
      rw [← Nat.mul_assoc, ← hpow, Nat.mod_add_div]
    calc value.toNat / 2 ^ 56 * 256 ^ n + value.toNat % 2 ^ 56 / 256 ^ k
        = (value.toNat % 2 ^ 56 + 256 ^ k * (256 ^ n * (value.toNat / 2 ^ 56))) / 256 ^ k := by
          rw [Nat.add_mul_div_left _ _ hpos]
          ring
      _ = value.toNat / 256 ^ k := by rw [← hsplit]

theorem toInt_eq (v : Int64) :
    v.toInt = if v.toUInt64.toNat < 2 ^ 63 then (v.toUInt64.toNat : ℤ) else v.toUInt64.toNat - 2 ^ 64 := by
  have h : v.toInt = BitVec.toInt v.toUInt64.toBitVec := rfl
  rw [h, BitVec.toInt_eq_toNat_cond, ← UInt64.toNat_toBitVec]
  split <;> split <;> omega

theorem twosValue_topBytes (v : Int64) : twosValue (topBytes 8 v.toUInt64) = v.toInt := by
  have hvalue : nboValue (topBytes 8 v.toUInt64) = v.toUInt64.toNat / 256 ^ 0 :=
    nboValue_topBytes (Nat.le_refl 8) v.toUInt64
  have hsign : (v.toUInt64 >>> 56).toUInt8 < 0x80 ↔ v.toUInt64.toNat < 2 ^ 63 := by
    have h80 : (0x80 : UInt8).toNat = 128 := rfl
    rw [UInt8.lt_iff_toNat_lt, toNat_top]
    omega
  rw [topBytes] at hvalue ⊢
  rw [twosValue_eq, hvalue, toInt_eq, length_topBytes, pow_zero, Nat.div_one]
  simp only [hsign]
  norm_num

theorem isShortest_derBytes (v : Int64) : IsShortest (derBytes v) := by
  refine isShortest_shorten fun h => ?_
  have := length_topBytes 8 v.toUInt64
  rw [h] at this
  cases this

theorem twosValue_derBytes (v : Int64) : twosValue (derBytes v) = v.toInt := by
  rw [derBytes, twosValue_shorten, twosValue_topBytes]

theorem length_derBytes_le (v : Int64) : (derBytes v).length ≤ 8 :=
  (length_shorten_le _).trans (length_topBytes 8 v.toUInt64).le

end Values

section Reading

def integerAttr (name : String) : DictAttr := { name := name, type := .integer .int64 }

theorem integerAttr_type (name : String) : ¬(integerAttr name).type ≠ .integer .int64 :=
  not_not.mpr rfl

theorem toNat_shift_or (value : UInt64) (byte : UInt8) :
    (value <<< 8 ||| byte.toUInt64).toNat = (value.toNat * 256 + byte.toNat) % 2 ^ 64 := by
  have hbyte := byte.toNat_lt
  have hdrop : value.toNat * 256 % 2 ^ 64 = 2 ^ 8 * (value.toNat % 2 ^ 56) := by omega
  rw [UInt64.toNat_or, toNat_shiftLeft_8, UInt8.toNat_toUInt64, hdrop,
    ← Nat.two_pow_add_eq_or_of_lt hbyte]
  omega

/-- The decoder's value, as far as 64 bits can hold it. -/
theorem decodeIntegerLoop_modEq (value : UInt64) (content : List UInt8) :
    ((decodeIntegerLoop value content).toNat : ℤ) ≡
      value.toNat * 256 ^ content.length + nboValue content [ZMOD 2 ^ 64] := by
  induction content generalizing value with
  | nil =>
    simp only [decodeIntegerLoop, foldl_nil, length_nil, pow_zero, mul_one, nboValue]
    simp
  | cons byte content ih =>
    have hstep : ((value <<< 8 ||| byte.toUInt64).toNat : ℤ) ≡ value.toNat * 256 + byte.toNat
        [ZMOD 2 ^ 64] := by
      rw [toNat_shift_or]
      push_cast
      exact Int.mod_modEq _ _
    have hrest := ih (value <<< 8 ||| byte.toUInt64)
    have heq : (value.toNat * 256 ^ (byte :: content).length + nboValue (byte :: content) : ℤ) =
        (value.toNat * 256 + byte.toNat) * 256 ^ content.length + nboValue content := by
      rw [nboValue_cons, length_cons]
      push_cast
      ring
    rw [heq]
    exact hrest.trans ((hstep.mul_right _).add_right _)

def signExtended (sign : UInt8) : UInt64 :=
  (if sign &&& 0x80 ≠ 0 then ~~~0xff else 0) ||| sign.toUInt64

theorem signExtended_modEq (sign : UInt8) :
    ((signExtended sign).toNat : ℤ) ≡ signedByte sign [ZMOD 2 ^ 64] :=
  forall_uint8 (P := fun sign => ((signExtended sign).toNat : ℤ) ≡ signedByte sign [ZMOD 2 ^ 64])
    (by unfold Int.ModEq; decide) sign

theorem redundant_iff (sign byte : UInt8) :
    (signExtended sign &&& 0xff = 0xff ∧ byte &&& 0x80 ≠ 0 ∨
      ~~~signExtended sign &&& 0xff = 0xff ∧ byte &&& 0x80 = 0) ↔ Redundant sign byte := by
  have hones : signExtended sign &&& 0xff = 0xff ↔ sign = 0xff :=
    forall_uint8 (P := fun sign => signExtended sign &&& 0xff = 0xff ↔ sign = 0xff)
      (by decide) sign
  have hzeros : ~~~signExtended sign &&& 0xff = 0xff ↔ sign = 0 :=
    forall_uint8 (P := fun sign => ~~~signExtended sign &&& 0xff = 0xff ↔ sign = 0)
      (by decide) sign
  have hclear : byte &&& 0x80 = 0 ↔ byte < 0x80 := by
    rw [← UInt8.not_le, ← and_0x80_ne_zero, not_not]
  rw [hones, hzeros, and_0x80_ne_zero, hclear, Redundant]

theorem toInt_toInt64 {value : UInt64} {n : ℤ} (h : (value.toNat : ℤ) ≡ n [ZMOD 2 ^ 64])
    (hmin : -2 ^ 63 ≤ n) (hmax : n < 2 ^ 63) : value.toInt64.toInt = n := by
  have hlt : value.toNat < 2 ^ 64 := value.toNat_lt
  have hback : value.toInt64.toUInt64 = value := rfl
  rw [toInt_eq, hback]
  obtain ⟨k, hk⟩ := h.dvd
  split <;> omega

theorem twosValue_range {bytes : List UInt8} (hne : bytes ≠ []) (hlen : bytes.length ≤ 8) :
    -2 ^ 63 ≤ twosValue bytes ∧ twosValue bytes < 2 ^ 63 := by
  cases bytes with
  | nil => exact absurd rfl hne
  | cons b bytes =>
    have hpow : (256 : ℤ) ^ bytes.length ≤ 256 ^ 7 :=
      pow_le_pow_right₀ (by decide) (Nat.le_of_succ_le_succ hlen)
    obtain ⟨hmin, hmax⟩ := twosValue_bounds b bytes
    constructor <;> linarith

variable {sign : UInt8} {content : List UInt8}

theorem toInt_decodeIntegerLoop (hlen : (sign :: content).length ≤ 8) :
    (decodeIntegerLoop (signExtended sign) content).toInt64.toInt = twosValue (sign :: content) := by
  obtain ⟨hmin, hmax⟩ := twosValue_range (cons_ne_nil sign content) hlen
  refine toInt_toInt64 ((decodeIntegerLoop_modEq _ _).trans ?_) hmin hmax
  rw [twosValue]
  exact ((signExtended_modEq sign).mul_right _).add_right _

/-- What the decoder answers for contents of one to eight bytes. -/
theorem frDerDecodeInteger_cons (name : String) (hlen : (sign :: content).length ≤ 8) (v : Int64) :
    frDerDecodeInteger (integerAttr name) (sign :: content) = .ok v ↔
      IsShortest (sign :: content) ∧ twosValue (sign :: content) = v.toInt := by
  have hvalue : ∀ w : Int64, w.toInt = twosValue (sign :: content) →
      (w = v ↔ twosValue (sign :: content) = v.toInt) := fun w hw => by
    rw [← hw, Int64.toInt_inj]
  have hloop := toInt_decodeIntegerLoop hlen
  cases content with
  | nil =>
    rw [frDerDecodeInteger, if_neg (integerAttr_type name), if_neg (by omega), ← hvalue _ hloop,
      Except.ok.injEq]
    exact (and_iff_right (isShortest_singleton sign)).symm
  | cons byte content =>
    have hcheck := redundant_iff sign byte
    rw [isShortest_cons_cons, ← hvalue _ hloop]
    by_cases hredundant : Redundant sign byte
    · have herror : frDerDecodeInteger (integerAttr name)
          (sign :: byte :: content) = .error .integerNotDer := by
        rw [frDerDecodeInteger, if_neg (integerAttr_type name), if_neg (by omega)]
        exact if_pos (hcheck.mpr hredundant)
      rw [herror]
      exact ⟨nofun, fun hshort => absurd hredundant hshort.1⟩
    · have hok : frDerDecodeInteger (integerAttr name)
          (sign :: byte :: content) =
            .ok (decodeIntegerLoop (signExtended sign) (byte :: content)).toInt64 := by
        rw [frDerDecodeInteger, if_neg (integerAttr_type name), if_neg (by omega)]
        exact if_neg fun h => hredundant (hcheck.mp h)
      rw [hok, Except.ok.injEq]
      exact (and_iff_right hredundant).symm

theorem frDerDecodeInteger_iff (name : String) (content : List UInt8) (v : Int64) :
    frDerDecodeInteger (integerAttr name) content = .ok v ↔
      IsShortest content ∧ twosValue content = v.toInt := by
  rcases content with _ | ⟨sign, content⟩
  · exact ⟨nofun, fun h => absurd rfl h.1.1⟩
  by_cases hlen : (sign :: content).length ≤ 8
  · exact frDerDecodeInteger_cons name hlen v
  constructor
  · intro h
    rw [frDerDecodeInteger, if_neg (integerAttr_type name), if_pos (by omega)] at h
    cases h
  rintro ⟨hshort, hvalue⟩
  -- the eight bytes that the encoder writes would be shorter
  have := hshort.2 (derBytes v) (isShortest_derBytes v).1
    ((twosValue_derBytes v).trans hvalue.symm)
  exact absurd (this.trans (length_derBytes_le v)) hlen

end Reading

section Canonical

/-- The encoder writes the shortest form of each value. The decoder accepts one to eight bytes if and
only if they are the shortest form of their value, and answers that value. What is written is
decoded to the value, and what is accepted is what is written for the value. -/
theorem frDerInteger_canonical (name : String) :
    (∀ (room : ℕ) (v : Int64), ∃ bytes : List UInt8,
      IsShortest bytes ∧ twosValue bytes = v.toInt ∧
      frDerEncodeInteger room (.int64 v) =
        (if bytes.length ≤ room then .ok bytes else .error .noRoom) ∧
      frDerDecodeInteger (integerAttr name) bytes = .ok v) ∧
    (∀ content : List UInt8, 1 ≤ content.length → content.length ≤ 8 →
      ((∃ v, frDerDecodeInteger (integerAttr name) content = .ok v) ↔ IsShortest content)) ∧
    ∀ (content : List UInt8) (v : Int64), frDerDecodeInteger (integerAttr name) content = .ok v →
      twosValue content = v.toInt ∧
      ∀ room, content.length ≤ room → frDerEncodeInteger room (.int64 v) = .ok content := by
  refine ⟨fun room v => ?_, fun content hpos hlen => ?_, fun content v h => ?_⟩
  · refine ⟨derBytes v, isShortest_derBytes v, twosValue_derBytes v, frDerEncodeInteger_eq room v, ?_⟩
    exact (frDerDecodeInteger_iff _ _ _).mpr ⟨isShortest_derBytes v, twosValue_derBytes v⟩
  · constructor
    · rintro ⟨v, h⟩
      exact ((frDerDecodeInteger_iff _ _ _).mp h).1
    intro hshort
    obtain ⟨hmin, hmax⟩ := twosValue_range hshort.1 hlen
    refine ⟨Int64.ofInt (twosValue content), (frDerDecodeInteger_iff _ _ _).mpr ⟨hshort, ?_⟩⟩
    exact (Int64.toInt_ofInt_of_le hmin hmax).symm
  · obtain ⟨hshort, hvalue⟩ := (frDerDecodeInteger_iff _ _ _).mp h
    refine ⟨hvalue, fun room hroom => ?_⟩
    have heq : derBytes v = content :=
      (isShortest_derBytes v).eq hshort ((twosValue_derBytes v).trans hvalue.symm)
    rw [frDerEncodeInteger_eq, heq, if_pos hroom]

/-- Two bytes are decoded to 128, which takes them both. -/
theorem frDerInteger_canonical_128 : frDerEncodeInteger 2 (.int64 128) = .ok [0x00, 0x80] :=
  ((frDerInteger_canonical "serialNumber").2.2 [0x00, 0x80] 128 (by decide)).2 2
    (by decide)

end Canonical

end FreeRadius.Der
