import FreeRadius.Cbor.Decode
import FreeRadius.Library.Fuel

/-!
# Integers

Every number below 2^64 is read back from the header and the bytes that it is
written as. The signed types are written with the two major types exchanged.
-/

namespace FreeRadius.Cbor

open Library

section Header

theorem header_spec : ∀ type < 8, ∀ info < 32,
    majorOf (header type info) = type ∧ infoOf (header type info) = info := by
  decide

variable {type info : ℕ}

theorem majorOf_header (ht : type < 8) (hi : info < 32) : majorOf (header type info) = type :=
  (header_spec type ht info hi).1

theorem infoOf_header (ht : type < 8) (hi : info < 32) : infoOf (header type info) = info :=
  (header_spec type ht info hi).2

end Header

section Plain

variable {type data : ℕ}

theorem integerBytes_ne_nil : integerBytes type data ≠ [] := by
  unfold integerBytes
  split_ifs <;> exact List.cons_ne_nil _ _

theorem cborEncodeInteger_long (info w : ℕ) :
    Writes (fun dbuff => cborEncodeInteger.encodeLong dbuff type data info w)
      (header type info :: nboBytes w data) :=
  ((appends_in [header type info]).bind (appends_in (nboBytes w data))).writes.congr fun dbuff => by
    simp [cborEncodeInteger.encodeLong]

theorem cborEncodeInteger_writes (type data : ℕ) :
    Writes (fun dbuff => cborEncodeInteger dbuff type data) (integerBytes type data) := by
  unfold cborEncodeInteger integerBytes
  split_ifs
  · exact (appends_in [header type data]).writes
  all_goals exact cborEncodeInteger_long _ _

theorem cborDecodeInteger_long {w : ℕ} {out : Option ℕ} {info : ℕ} (hdata : data < 256 ^ w)
    (hinfo : ∀ dbuff, cborDecodeInteger out info dbuff = cborDecodeInteger.decodeLong dbuff w)
    (rest : List UInt8) :
    cborDecodeInteger out info (nboBytes w data ++ rest) = .ok (data, rest) := by
  rw [hinfo, cborDecodeInteger.decodeLong, reads_integer hdata rest, ok_bind]
  exact frDbuffSetIn_append _ rest data

theorem integerBytes_spec (type : ℕ) (hdata : data < 2 ^ 64) :
    ∃ info payload, integerBytes type data = header type info :: payload ∧ info < 28 ∧
      ∀ out rest, cborDecodeInteger out info (payload ++ rest) = .ok (data, rest) := by
  unfold integerBytes
  split_ifs with h0 h1 h2 h4
  · refine ⟨data, [], rfl, by omega, fun out rest => ?_⟩
    unfold cborDecodeInteger
    rw [if_pos h0, List.nil_append]
  · exact ⟨24, _, rfl, by omega, fun out => cborDecodeInteger_long (by omega) fun dbuff => by rfl⟩
  · exact ⟨25, _, rfl, by omega, fun out => cborDecodeInteger_long (by omega) fun dbuff => by rfl⟩
  · exact ⟨26, _, rfl, by omega, fun out => cborDecodeInteger_long (by omega) fun dbuff => by rfl⟩
  · exact ⟨27, _, rfl, by omega, fun out => cborDecodeInteger_long (by omega) fun dbuff => by rfl⟩

theorem cborDecodeCount_reads (out : Option ℕ) (htype : type < 8) (hdata : data < 2 ^ 64) :
    Reads (cborDecodeCount out type) (integerBytes type data) data := by
  intro rest
  obtain ⟨info, payload, hbytes, hinfo, hdecode⟩ := integerBytes_spec type hdata
  rw [hbytes, List.cons_append, cborDecodeCount, frDbuffOut_cons, ok_bind]
  simp only [majorOf_header htype (by omega : info < 32), ne_eq, not_true_eq_false, if_false,
    infoOf_header htype (by omega : info < 32), hdecode, returnIfNegative_ok, ok_bind]
  exact frDbuffSetIn_append (header type info :: payload) rest data

end Plain

section Boxes

variable {fl : FloatOps} {type : FrType}

/-- The type that a box is decoded as. -/
def resolvedType (declared : FrType) (work : List UInt8) : FrType :=
  if declared = .null then cborGuessType work false else declared

variable {declared : FrType} {work : List UInt8} {fuel major info : ℕ}

theorem resolvedType_declared (h : declared ≠ .null) (work : List UInt8) :
    resolvedType declared work = declared := if_neg h

theorem decodeValueBox_cons {byte : UInt8} :
    frCborDecodeValueBox fl (fuel + 1) (byte :: work) declared =
      if resolvedType declared work = .null then .error ⟨0, some .noGuess⟩
      else if isMalformed byte then .error ⟨0, some .notWellFormed⟩
      else if majorOf byte = cborArray then
        if resolvedType declared work ≠ .structural .group then
          .error ⟨-1, some (.valueBoxType (resolvedType declared work))⟩
        else
          arrayCount (byte :: work) work none (infoOf byte) >>= fun count =>
            decodeMembers fl fuel (byte :: work) count.2 count.1.1 count.1.2 >>= fun members =>
              frDbuffSetIn (byte :: work) members.2 (.structural .group members.1)
      else decodeScalarBox fl (majorOf byte) (byte :: work) work (resolvedType declared work)
        (infoOf byte) := by
  rw [frCborDecodeValueBox]
  rfl

theorem isMalformed_header (hmajor : major < 8) (hinfo : info < 28) :
    isMalformed (header major info) = false := by
  have h28 : ¬28 ≤ info := by omega
  have h31 : info ≠ 31 := by omega
  simp [isMalformed, infoOf_header hmajor (by omega : info < 32), h28, h31]

/-- A header that is not the one of an array decides how the box is decoded. -/
theorem decodeValueBox_scalar (hres : resolvedType declared work = type) (htype : type ≠ .null)
    (hmajor : major < 8) (harray : major ≠ cborArray) (hinfo : info < 28) :
    frCborDecodeValueBox fl (fuel + 1) (header major info :: work) declared =
      decodeScalarBox fl major (header major info :: work) work type info := by
  rw [decodeValueBox_cons, hres, if_neg htype, isMalformed_header hmajor hinfo,
    majorOf_header hmajor (by omega : info < 32), infoOf_header hmajor (by omega : info < 32),
    if_neg harray]
  rfl

end Boxes

end FreeRadius.Cbor
