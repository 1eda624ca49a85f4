import FreeRadius.Library.BitFields
import FreeRadius.Struct.Model
import Mathlib.Data.List.GetD

/-!
# Bit fields

What `put_bits_dbuff` writes and what the decoder reads, as bits: the writer appends the bits of a
field to those that it has written or keeps in its buffer, and the reader takes them out again,
wherever in a byte the field begins.
-/

namespace FreeRadius.Struct

open Library List

section Put

theorem usedBits_toNat {startBit : ℕ} (h : startBit ≤ 7) (p : UInt8) :
    ((BitVec.ofNat 64 p.toNat) &&& (BitVec.ofInt 64 (-256)).sshiftRight startBit).toNat =
      p.toNat / 2 ^ (8 - startBit) * 2 ^ (8 - startBit) := by
  interval_cases startBit <;> revert p <;> refine forall_uint8 ?_ <;> decide

theorem maskedData_toNat {numBits : ℕ} (h : numBits ≤ 56) (data : BitVec 64) :
    (data &&& ((1#64 <<< numBits) - 1)).toNat = data.toNat % 2 ^ numBits := by
  have hpow : 2 ^ numBits < 2 ^ 64 := Nat.pow_lt_pow_right (by decide) (by omega)
  have hmask : ((1#64 <<< numBits) - 1).toNat = 2 ^ numBits - 1 := by
    have hone : (1#64 <<< numBits).toNat = 2 ^ numBits := by
      rw [BitVec.toNat_shiftLeft, Nat.shiftLeft_eq, Nat.mod_eq_of_lt]
      · exact Nat.one_mul _
      · simpa using hpow
    have hpos : 0 < 2 ^ numBits := Nat.two_pow_pos numBits
    rw [BitVec.toNat_sub_of_le, hone]
    · rfl
    · rw [BitVec.le_def, hone]
      exact hpos
  rw [BitVec.toNat_and, hmask, Nat.and_two_pow_sub_one_eq_mod]

variable {p : UInt8} {startBit numBits : ℕ} {data : BitVec 64}

theorem putBitsWord_toNat (hs : startBit ≤ 7) (hn : numBits ≤ 56) :
    (putBitsWord p startBit numBits data).toNat =
      2 ^ (64 - startBit) * (p.toNat / 2 ^ (8 - startBit)) +
        data.toNat % 2 ^ numBits * 2 ^ (64 - (startBit + numBits)) := by
  have hp : p.toNat < 256 := p.toNat_lt
  have hdata : data.toNat % 2 ^ numBits < 2 ^ numBits := Nat.mod_lt _ (Nat.two_pow_pos _)
  -- the data lie below the bits that were kept
  have hlow : data.toNat % 2 ^ numBits * 2 ^ (64 - (startBit + numBits)) < 2 ^ (64 - startBit) := by
    calc data.toNat % 2 ^ numBits * 2 ^ (64 - (startBit + numBits))
        < 2 ^ numBits * 2 ^ (64 - (startBit + numBits)) :=
          Nat.mul_lt_mul_of_pos_right hdata (Nat.two_pow_pos _)
      _ = 2 ^ (64 - startBit) := by
        rw [← Nat.pow_add]
        congr 1
        omega
  have hhigh : p.toNat / 2 ^ (8 - startBit) * 2 ^ (8 - startBit) * 2 ^ 56 =
      2 ^ (64 - startBit) * (p.toNat / 2 ^ (8 - startBit)) := by
    have hpow : 2 ^ (64 - startBit) = 2 ^ (8 - startBit) * 2 ^ 56 := by
      rw [← Nat.pow_add]
      congr 1
      omega
    rw [hpow]
    ring
  have hused : p.toNat / 2 ^ (8 - startBit) * 2 ^ (8 - startBit) * 2 ^ 56 < 2 ^ 64 := by
    have hle : p.toNat / 2 ^ (8 - startBit) * 2 ^ (8 - startBit) ≤ p.toNat := Nat.div_mul_le_self _ _
    omega
  have hle : 2 ^ (64 - startBit) ≤ 2 ^ 64 := Nat.pow_le_pow_right (by decide) (by omega)
  simp only [putBitsWord, BitVec.toNat_or, BitVec.toNat_shiftLeft, Nat.shiftLeft_eq,
    usedBits_toNat hs, maskedData_toNat hn]
  rw [Nat.mod_eq_of_lt (hlow.trans_le hle), Nat.mod_eq_of_lt hused, hhigh,
    Nat.or_comm, ← Nat.two_pow_add_eq_or_of_lt hlow]

/-- The bits kept, the bits of the field, and zeros. -/
theorem bitsOf_putBitsWord (hs : startBit ≤ 7) (hn : numBits ≤ 56) :
    bitsOf 64 (putBitsWord p startBit numBits data).toNat =
      ((bitsOf 8 p.toNat).take startBit ++ bitsOf numBits data.toNat) ++
        replicate (64 - (startBit + numBits)) false := by
  have hkept : (bitsOf 8 p.toNat).take startBit = bitsOf startBit (p.toNat / 2 ^ (8 - startBit)) := by
    have htake := take_bitsOf startBit (8 - startBit) p.toNat
    rwa [Nat.add_sub_cancel' (by omega)] at htake
  have hp : p.toNat / 2 ^ (8 - startBit) < 2 ^ startBit := by
    have hlt : p.toNat < 2 ^ startBit * 2 ^ (8 - startBit) := by
      rw [← Nat.pow_add, Nat.add_sub_cancel' (by omega)]
      exact p.toNat_lt
    exact Nat.div_lt_of_lt_mul (by rwa [Nat.mul_comm])
  rw [hkept, putBitsWord_toNat hs hn]
  refine bitsValue_inj (by simp; omega) ?_
  rw [bitsValue_append, bitsValue_append, bitsValue_bitsOf, bitsValue_bitsOf, bitsValue_bitsOf,
    bitsValue_replicate_false, length_bitsOf, length_replicate, Nat.mod_eq_of_lt hp]
  have hsplit : 2 ^ (64 - startBit) = 2 ^ numBits * 2 ^ (64 - (startBit + numBits)) := by
    rw [← Nat.pow_add]
    congr 1
    omega
  have hlt : 2 ^ (64 - startBit) * (p.toNat / 2 ^ (8 - startBit)) +
      data.toNat % 2 ^ numBits * 2 ^ (64 - (startBit + numBits)) < 2 ^ 64 := by
    rw [← putBitsWord_toNat hs hn]
    exact BitVec.isLt _
  rw [Nat.mod_eq_of_lt hlt, hsplit]
  ring

/-- What `put_bits_dbuff` writes and keeps: the bits before it, and those of the field. -/
theorem putBitsDbuff_spec (room : ℕ) (out : List UInt8) (p : UInt8) (data : BitVec 64)
    (hs : startBit ≤ 7) (hn : 1 ≤ numBits) (hn' : numBits ≤ 56)
    (hroom : out.length + (startBit + numBits) / 8 ≤ room) :
    ∃ out' p', putBitsDbuff room out p startBit numBits data =
        .ok (out', p', (startBit + numBits) % 8) ∧
      out'.length = out.length + (startBit + numBits) / 8 ∧
      byteBits out' ++ (bitsOf 8 p'.toNat).take ((startBit + numBits) % 8) =
        byteBits out ++ (bitsOf 8 p.toNat).take startBit ++ bitsOf numBits data.toNat := by
  obtain ⟨bytes, hbytes⟩ : ∃ bytes, bytes = nboBytes 8 (putBitsWord p startBit numBits data).toNat :=
    ⟨_, rfl⟩
  have hlen : bytes.length = 8 := by rw [hbytes, length_nboBytes]
  have hindex : (startBit + numBits) / 8 < bytes.length := by omega
  have hbits : (byteBits bytes).take (startBit + numBits) =
      (bitsOf 8 p.toNat).take startBit ++ bitsOf numBits data.toNat := by
    rw [hbytes, byteBits_nboBytes (BitVec.isLt _), bitsOf_putBitsWord hs hn', take_left']
    simp
    omega
  have hpieces := byteBits_take hindex (j := (startBit + numBits) % 8) (by omega)
  rw [Nat.div_add_mod, hbits] at hpieces
  refine ⟨out ++ bytes.take ((startBit + numBits) / 8), bytes.get ⟨_, hindex⟩, ?_, ?_, ?_⟩
  · have hin : (if startBit + numBits > 7 then
        dbuffIn room out (bytes.take ((startBit + numBits) / 8)) else .ok out) =
        .ok (out ++ bytes.take ((startBit + numBits) / 8)) := by
      split
      · rw [dbuffIn, if_pos]
        rw [length_take]
        omega
      · have hzero : (startBit + numBits) / 8 = 0 := by omega
        rw [hzero, take_zero, append_nil]
    have hget : bytes.getD ((startBit + numBits) / 8) 0 = bytes.get ⟨_, hindex⟩ :=
      getD_eq_getElem _ _ hindex
    simp only [putBitsDbuff, ← hbytes, hin, hget]
    rw [if_neg (by omega), if_neg (by omega)]
  · rw [length_append, length_take]
    omega
  · rw [byteBits_append, append_assoc, ← hpieces, append_assoc]

end Put

section Read

theorem byteBits_masked {offset : ℕ} (ho : offset ≤ 7) (data : List UInt8) (hne : data ≠ []) :
    byteBits (if offset > 0 then
        data.modifyHead fun b => b &&& (UInt8.ofNat (1 <<< (8 - offset)) - 1) else data) =
      replicate offset false ++ (byteBits data).drop offset := by
  rcases data with _ | ⟨b, data⟩
  · exact absurd rfl hne
  split
  · have hmask : (b &&& (UInt8.ofNat (1 <<< (8 - offset)) - 1)).toNat = b.toNat % 2 ^ (8 - offset) := by
      have hsub : (UInt8.ofNat (1 <<< (8 - offset)) - 1).toNat = 2 ^ (8 - offset) - 1 := by
        interval_cases offset <;> first | omega | rfl
      rw [UInt8.toNat_and, hsub, Nat.and_two_pow_sub_one_eq_mod]
    have height : offset + (8 - offset) = 8 := by omega
    have hbits := bitsOf_mod offset (8 - offset) b.toNat
    have hdrop := drop_bitsOf offset (8 - offset) b.toNat
    rw [height] at hbits hdrop
    rw [modifyHead_cons, byteBits_cons, byteBits_cons, hmask, hbits, append_assoc,
      drop_append_of_le_length (by simp; omega), hdrop]
  · have hzero : offset = 0 := by omega
    rw [hzero, drop_zero, replicate_zero, nil_append]

theorem bitFieldNumber_eq {offset length : ℕ} {data : List UInt8} (ho : offset ≤ 7)
    (hl : 1 ≤ length) (hl' : length ≤ 56) (hlen : frBytesFromBits (offset + length) ≤ data.length) :
    bitFieldNumber offset length data =
      bitsValue (((byteBits data).drop offset).take length) := by
  obtain ⟨c, hc⟩ : ∃ c, c = frBytesFromBits (offset + length) := ⟨_, rfl⟩
  have hc' : c = (offset + length + 7) / 8 := by rw [hc, frBytesFromBits, Nat.shiftRight_eq_div_pow]
  have hused : (data.take c).length = c := by rw [length_take]; omega
  have hne : data.take c ≠ [] := by
    intro hnil
    rw [hnil, length_nil] at hused
    omega
  obtain ⟨masked, hmasked⟩ : ∃ masked, masked = (if offset > 0 then
      (data.take c).modifyHead fun b => b &&& (UInt8.ofNat (1 <<< (8 - offset)) - 1)
    else data.take c) := ⟨_, rfl⟩
  have hbits := byteBits_masked ho (data.take c) hne
  rw [← hmasked] at hbits
  have hlength : masked.length = c := by
    rw [hmasked]
    split
    · rw [length_modifyHead, hused]
    · exact hused
  -- the field and the zeros before it are the first bits of the array
  have hfirst : (byteBits (masked ++ replicate (8 - masked.length) 0)).take (offset + length) =
      replicate offset false ++ ((byteBits data).drop offset).take length := by
    rw [byteBits_append, take_append_of_le_length (by rw [length_byteBits, hlength]; omega), hbits,
      byteBits_take_bytes, take_append, length_replicate, Nat.add_sub_cancel_left,
      take_of_length_le (by simp), drop_take, take_take]
    congr 2
    omega
  have hsplit := take_append_drop (offset + length)
    (byteBits (masked ++ replicate (8 - masked.length) 0))
  have hrest : ((byteBits (masked ++ replicate (8 - masked.length) 0)).drop
      (offset + length)).length = 64 - (offset + length) := by
    rw [length_drop, length_byteBits, length_append, length_replicate, hlength]
    omega
  have hvalue : bitFieldNumber offset length data =
      nboValue (masked ++ replicate (8 - masked.length) 0) >>> (8 - offset) >>> (56 - length) := by
    rw [hmasked, hc]
    rfl
  have hshift : 8 - offset + (56 - length) = 64 - (offset + length) := by omega
  rw [hvalue, ← Nat.shiftRight_add, hshift, Nat.shiftRight_eq_div_pow, ← bitsValue_byteBits,
    ← hsplit, ← hrest, bitsValue_append_div, hfirst, bitsValue_replicate_append]

end Read

end FreeRadius.Struct
