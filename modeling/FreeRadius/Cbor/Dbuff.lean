import FreeRadius.Library.Word

/-!
# Data buffers

The part of `dbuff.h` that the CBOR functions use. Every function works on a
copy of the buffer it is given, with its own position, and moves the buffer
only at its end: with `fr_dbuff_set`, which answers by how much it moved. A
function that fails answers a length that is not positive.
-/

namespace FreeRadius.Cbor

open Library List

/-- The data types that have an integer in the value box. -/
inductive IntType where
  | uint8 | uint16 | uint32 | uint64 | int8 | int16 | int32 | int64
  deriving DecidableEq, Repr

inductive IpType where
  | ipv4Addr | ipv4Prefix | ipv6Addr | ipv6Prefix
  deriving DecidableEq, Repr

inductive StructType where
  | tlv | struct | vsa | vendor | group
  deriving DecidableEq, Repr

/-- `fr_type_t` -/
inductive FrType where
  | null | string | octets | bool | ethernet | date | timeDelta | float32 | float64
  | integer (t : IntType)
  | ip (t : IpType)
  | structural (t : StructType)
  deriving DecidableEq, Repr

/-- What the error buffer reports. -/
inductive CborError where
  /-- "Invalid data type %s for cbor encoding" -/
  | encodingType (type : FrType)
  /-- "Expected cbor type '%s', got unexpected type %d " -/
  | expectedType (expected major : ℕ)
  /-- "Invalid length for data - expected at least %zu got %" -/
  | lengthBelow (min value : ℕ)
  /-- "Invalid length for data - expected no more than %zu got %" -/
  | lengthAbove (max value : ℕ)
  /-- "Invalid IPv4 interface - expected array of 2-3 elements, got %02x", also for IPv6 -/
  | interfaceArray (header : UInt8)
  /-- "Invalid IPv4 address - expected prefix = 32 got %" -/
  | ipv4Address (value : ℕ)
  /-- "Invalid IPv6 address - expected prefix = 128 got %" -/
  | ipv6Address (value : ℕ)
  /-- "Invalid IPv4 prefix - expected array of 2 elements, got %02x", or IPv6 -/
  | prefixArray (bits : ℕ) (header : UInt8)
  /-- "Invalid IPv4 prefix - expected prefix < 32, got %", or IPv6 and 128 -/
  | prefixLength (bits value : ℕ)
  /-- "cbor value is too large for output data type %s" -/
  | tooLarge (type : FrType)
  /-- "cbor data contains invalid content %d for expected data type %s" -/
  | content (major : ℕ) (type : FrType)
  /-- "Unexpected count %  for time_delta, expected map of 1-2 elements" -/
  | timeDeltaCount (count : ℕ)
  /-- "Unexpected key % for time_delta, expected key 1" -/
  | timeDeltaKey (key : ℤ)
  /-- "Unsupported time_delta key %" -/
  | timeDeltaFraction (key : ℤ)
  /-- "Invalid cbor data - input is not 'well formed'" -/
  | notWellFormed
  /-- "Chunked strings are not supported" -/
  | chunked
  /-- "cbor data string is too long (%)" -/
  | stringTooLong (value : ℕ)
  /-- "Unexpected cbor type 'integer' when decoding data type %s" -/
  | integerType (type : FrType)
  /-- "Unexpected cbor type 'float' when decoding data type %s" -/
  | floatType (type : FrType)
  /-- "Invalid cbor - boolean is not encoded as 'true' or 'false'" -/
  | notBoolean
  /-- "Invalid cbor - unexpected 'simple value' %u" -/
  | simpleValue (info : ℕ)
  /-- "Unknown cbor tag % for expected data type %s" -/
  | unknownTag (value : ℕ) (type : FrType)
  /-- "Invalid cbor tag % for expected data type %s" -/
  | invalidTag (value : ℕ) (type : FrType)
  /-- "Unexpected 'break' found in cbor data" -/
  | unexpectedBreak
  /-- "Invalid data type %s for cbor to value-box" -/
  | valueBoxType (type : FrType)
  /-- "Invalid cbor - insufficient data", or "unable to determine data type" -/
  | noGuess
  /-- "Invalid cbor header - expected map of 1 elements, got %02x" -/
  | pairHeader (header : UInt8)
  /-- "Invalid cbor - expected 'integer', got major type %d" -/
  | pairKey (major : ℕ)
  /-- "Invalid data type %s for child %s of %s" -/
  | childType (type : FrType)
  /-- "Invalid cbor - expected 'array', got major type %d" -/
  | expectedArray (major : ℕ)
  /-- A local variable is used that has not been set. -/
  | notSet
  /-- The fuel of the recursion is used up. -/
  | unfinished
  deriving DecidableEq, Repr

/-- The length that a failing function answers, and its message if it has one. -/
structure Failure where
  slen : ℤ
  error : Option CborError
  deriving DecidableEq, Repr

@[simp] theorem ok_bind {β γ : Type} (x : β) (f : β → Except Failure γ) :
    (Except.ok x >>= f) = f x := rfl

@[simp] theorem error_bind {β γ : Type} (failure : Failure) (f : β → Except Failure γ) :
    (Except.error failure >>= f) = .error failure := rfl

section Output

variable {f : FrDbuff → Except Failure (FrDbuff × ℕ)} {bytes : List UInt8}

/-- A buffer that is written to: the bytes between its start and its current
position, and how many more it takes, by itself or by being extended. -/
structure FrDbuff where
  used : List UInt8
  remaining : ℕ
  deriving DecidableEq, Repr

/-- `FR_DBUFF`: a copy that starts at the current position. -/
def frDbuff (dbuff : FrDbuff) : FrDbuff := { dbuff with used := [] }

/-- `FR_DBUFF_IN_MEMCPY_RETURN` -/
def frDbuffIn (dbuff : FrDbuff) (bytes : List UInt8) : Except Failure FrDbuff :=
  if bytes.length ≤ dbuff.remaining then
    .ok { used := dbuff.used ++ bytes, remaining := dbuff.remaining - bytes.length }
  else .error ⟨-(bytes.length - dbuff.remaining), none⟩

/-- `fr_dbuff_set` for a copy that was written to. -/
def frDbuffSet (dbuff workDbuff : FrDbuff) : FrDbuff × ℕ :=
  ({ used := dbuff.used ++ workDbuff.used, remaining := workDbuff.remaining },
    workDbuff.used.length)

/-- `if (slen <= 0) return_slen;` -/
def returnSlen (workDbuff : FrDbuff) (result : Except Failure (FrDbuff × ℕ)) :
    Except Failure FrDbuff :=
  match result with
  | .ok (dbuff, slen) => if slen = 0 then .error ⟨-workDbuff.used.length, none⟩ else .ok dbuff
  | .error failure => .error { failure with slen := failure.slen - workDbuff.used.length }

/-- The buffer with these bytes behind the ones it has. -/
def FrDbuff.push (dbuff : FrDbuff) (bytes : List UInt8) : FrDbuff :=
  { used := dbuff.used ++ bytes, remaining := dbuff.remaining - bytes.length }

/-- The steps append these bytes, and fail if there is no room for them. -/
def Appends (steps : FrDbuff → Except Failure FrDbuff) (bytes : List UInt8) : Prop :=
  ∀ dbuff, (bytes.length ≤ dbuff.remaining → steps dbuff = .ok (dbuff.push bytes)) ∧
    (dbuff.remaining < bytes.length → ∃ failure, steps dbuff = .error failure)

/-- The function writes these bytes and answers how many, and fails if there is
no room for them. -/
def Writes (encode : FrDbuff → Except Failure (FrDbuff × ℕ)) (bytes : List UInt8) : Prop :=
  ∀ dbuff, (bytes.length ≤ dbuff.remaining → encode dbuff = .ok (dbuff.push bytes, bytes.length)) ∧
    (dbuff.remaining < bytes.length → ∃ failure, encode dbuff = .error failure)

theorem appends_nil : Appends (fun dbuff => .ok dbuff) [] := by
  intro dbuff
  refine ⟨fun _ => ?_, fun h => absurd h (by simp)⟩
  simp [FrDbuff.push]

theorem appends_in (bytes : List UInt8) : Appends (fun dbuff => frDbuffIn dbuff bytes) bytes := by
  intro dbuff
  refine ⟨fun h => ?_, fun h => ?_⟩
  · simp [frDbuffIn, FrDbuff.push, h]
  · refine ⟨⟨-(bytes.length - dbuff.remaining), none⟩, ?_⟩
    simp only [frDbuffIn, if_neg (Nat.not_le.mpr h)]

theorem Appends.bind {f g : FrDbuff → Except Failure FrDbuff} {a b : List UInt8}
    (hf : Appends f a) (hg : Appends g b) : Appends (fun dbuff => f dbuff >>= g) (a ++ b) := by
  intro dbuff
  rw [length_append]
  beta_reduce
  refine ⟨fun h => ?_, fun h => ?_⟩
  · have hroom : b.length ≤ (dbuff.push a).remaining := by
      simp only [FrDbuff.push]
      omega
    rw [(hf dbuff).1 (by omega)]
    refine ((hg _).1 hroom).trans ?_
    simp only [FrDbuff.push, append_assoc, length_append]
    congr 2
    omega
  · by_cases ha : a.length ≤ dbuff.remaining
    · have hroom : (dbuff.push a).remaining < b.length := by
        simp only [FrDbuff.push]
        omega
      rw [(hf dbuff).1 ha]
      exact (hg _).2 hroom
    · obtain ⟨failure, hfail⟩ := (hf dbuff).2 (by omega)
      exact ⟨failure, by rw [hfail]; rfl⟩

theorem Writes.call (hf : Writes f bytes) (hne : bytes ≠ []) :
    Appends (fun dbuff => returnSlen dbuff (f dbuff)) bytes := by
  intro dbuff
  refine ⟨fun h => ?_, fun h => ?_⟩
  · have hpos : bytes.length ≠ 0 := fun hz => hne (eq_nil_of_length_eq_zero hz)
    simp only [(hf dbuff).1 h, returnSlen, if_neg hpos]
  · obtain ⟨failure, hfail⟩ := (hf dbuff).2 h
    refine ⟨{ failure with slen := failure.slen - dbuff.used.length }, ?_⟩
    simp only [hfail, returnSlen]

theorem Appends.writes {f : FrDbuff → Except Failure FrDbuff} (hf : Appends f bytes) :
    Writes (fun dbuff => f (frDbuff dbuff) >>= fun work => .ok (frDbuffSet dbuff work)) bytes := by
  intro dbuff
  beta_reduce
  refine ⟨fun h => ?_, fun h => ?_⟩
  · rw [(hf (frDbuff dbuff)).1 h]
    simp [frDbuffSet, frDbuff, FrDbuff.push]
  · obtain ⟨failure, hfail⟩ := (hf (frDbuff dbuff)).2 h
    exact ⟨failure, by rw [hfail]; rfl⟩

theorem Writes.congr {g : FrDbuff → Except Failure (FrDbuff × ℕ)} (hf : Writes f bytes)
    (h : ∀ dbuff, g dbuff = f dbuff) : Writes g bytes := by
  obtain rfl : g = f := funext h
  exact hf

theorem Writes.unique {a b : List UInt8} (ha : Writes f a) (hb : Writes f b) : a = b := by
  obtain ⟨dbuff, hused, hroom⟩ : ∃ dbuff : FrDbuff, dbuff.used = [] ∧
      dbuff.remaining = a.length + b.length := ⟨⟨[], _⟩, rfl, rfl⟩
  have heq : Except.ok (ε := Failure) (dbuff.push a, a.length) = .ok (dbuff.push b, b.length) := by
    rw [← (ha dbuff).1 (by omega), (hb dbuff).1 (by omega)]
  have hpush : dbuff.push a = dbuff.push b := congrArg Prod.fst (Except.ok.inj heq)
  simpa [FrDbuff.push, hused] using congrArg FrDbuff.used hpush

end Output

section Input

variable {β : Type}

/-- `FR_DBUFF_OUT_RETURN` of one byte. A buffer that is read from is the bytes
behind its current position. -/
def frDbuffOut (dbuff : List UInt8) : Except Failure (UInt8 × List UInt8) :=
  match dbuff with
  | [] => .error ⟨-1, none⟩
  | byte :: rest => .ok (byte, rest)

/-- `FR_DBUFF_OUT_RETURN` of an integer of `w` bytes. -/
def frDbuffOutInteger (w : ℕ) (dbuff : List UInt8) : Except Failure (ℕ × List UInt8) :=
  if w ≤ dbuff.length then .ok (nboValue (dbuff.take w), dbuff.drop w)
  else .error ⟨-(w - dbuff.length), none⟩

/-- `FR_DBUFF_OUT_MEMCPY_RETURN` -/
def frDbuffOutMemcpy (outlen : ℕ) (dbuff : List UInt8) :
    Except Failure (List UInt8 × List UInt8) :=
  if outlen ≤ dbuff.length then .ok (dbuff.take outlen, dbuff.drop outlen)
  else .error ⟨-(outlen - dbuff.length), none⟩

variable (dbuff workDbuff : List UInt8)

/-- `fr_dbuff_set` as the last thing a reading function does. Moving the buffer
back answers a negative length, which its callers take for a failure. -/
def frDbuffSetIn (out : β) : Except Failure (β × List UInt8) :=
  if workDbuff.length ≤ dbuff.length then .ok (out, workDbuff)
  else .error ⟨dbuff.length - workDbuff.length, none⟩

/-- `if (slen < 0) return_slen;` in a function that started at `dbuff`. -/
def returnIfNegative (result : Except Failure (β × List UInt8)) :
    Except Failure (β × List UInt8) :=
  match result with
  | .ok out => .ok out
  | .error failure =>
    .error { failure with slen := failure.slen - (dbuff.length - workDbuff.length) }

/-- `if (slen <= 0) return_slen;` in a function that started at `dbuff`. -/
def returnUnlessPositive
    (result : Except Failure (β × List UInt8)) : Except Failure (β × List UInt8) :=
  match result with
  | .ok (out, rest) =>
    if rest.length < workDbuff.length then .ok (out, rest)
    else .error ⟨-(dbuff.length - workDbuff.length), none⟩
  | .error failure =>
    .error { failure with slen := failure.slen - (dbuff.length - workDbuff.length) }

/-- The function reads exactly these bytes, whatever follows them. -/
def Reads (decode : List UInt8 → Except Failure (β × List UInt8)) (bytes : List UInt8) (out : β) :
    Prop :=
  ∀ rest, decode (bytes ++ rest) = .ok (out, rest)

theorem frDbuffOut_cons (byte : UInt8) (rest : List UInt8) :
    frDbuffOut (byte :: rest) = .ok (byte, rest) := rfl

theorem reads_integer {w n : ℕ} (h : n < 256 ^ w) : Reads (frDbuffOutInteger w)
    (nboBytes w n) n := by
  intro rest
  have htake : (nboBytes w n ++ rest).take w = nboBytes w n := take_left' (length_nboBytes w n)
  have hdrop : (nboBytes w n ++ rest).drop w = rest := drop_left' (length_nboBytes w n)
  rw [frDbuffOutInteger, if_pos (by simp), htake, hdrop, nboValue_nboBytes h]

theorem reads_memcpy (bytes : List UInt8) : Reads (frDbuffOutMemcpy bytes.length) bytes bytes := by
  intro rest
  rw [frDbuffOutMemcpy, if_pos (by simp), take_left, drop_left]

theorem frDbuffSetIn_append (bytes rest : List UInt8) (out : β) :
    frDbuffSetIn (bytes ++ rest) rest out = .ok (out, rest) := by
  rw [frDbuffSetIn, if_pos (by simp)]

@[simp] theorem returnIfNegative_ok (out : β × List UInt8) :
    returnIfNegative dbuff workDbuff (.ok out) = .ok out := rfl

theorem returnUnlessPositive_ok {dbuff bytes rest : List UInt8} {out : β} (h : bytes ≠ []) :
    returnUnlessPositive dbuff (bytes ++ rest) (.ok (out, rest)) = .ok (out, rest) := by
  have hlen : 0 < bytes.length := List.length_pos_iff.mpr h
  rw [returnUnlessPositive, if_pos (by rw [length_append]; omega)]

theorem Reads.call {decode : List UInt8 → Except Failure (β × List UInt8)} {bytes : List UInt8}
    {out : β} (h : Reads decode bytes out) (hne : bytes ≠ []) (dbuff rest : List UInt8) :
    returnUnlessPositive dbuff (bytes ++ rest) (decode (bytes ++ rest)) = .ok (out, rest) := by
  rw [h rest, returnUnlessPositive_ok hne]

end Input

end FreeRadius.Cbor
