import FreeRadius.Cbor.Integers

/-!
# Value boxes and their bytes

The bytes that a value box is written as, as one function of the box, and what
it means that a box survives being written and read. Integer boxes survive
exactly if their type is unsigned.
-/

namespace FreeRadius.Cbor

open Library List

def octetsBytes (data : List UInt8) : List UInt8 := integerBytes cborOctets data.length ++ data

def int64Bytes (neg : ℤ) : List UInt8 :=
  if 0 ≤ neg then integerBytes cborInteger neg.toNat
  else integerBytes cborNegative (-(neg + 1)).toNat

def signedBytes (neg : ℤ) : List UInt8 :=
  if 0 ≤ neg then integerBytes cborNegative neg.toNat
  else integerBytes cborInteger (-(neg + 1)).toNat

def unsignedPayload (t : IntType) (vbUint64 : BitVec 64) : ℕ :=
  match t with
  | .uint8 => (vbUint64.setWidth 8).toNat
  | .uint16 => (vbUint64.setWidth 16).toNat
  | _ => vbUint64.toNat

def signedPayload (t : IntType) (vbUint64 : BitVec 64) : ℤ :=
  match t with
  | .int8 => (vbUint64.setWidth 8).toInt
  | .int16 => (vbUint64.setWidth 16).toInt
  | _ => vbUint64.toInt

def integerBoxBytes (t : IntType) (vbUint64 : BitVec 64) : List UInt8 :=
  if t.isSigned then signedBytes (signedPayload t vbUint64)
  else integerBytes cborInteger (unsignedPayload t vbUint64)

def tagBytes (type : FrType) : List UInt8 := integerBytes cborTag (cborTypeToTag type)

def prefixBytes (t : IpType) (ip : FrIpaddr) : List UInt8 :=
  tagBytes (.ip t) ++ (integerBytes cborArray 2 ++
    (integerBytes cborInteger ip.prefixLength ++ octetsBytes (trimmedAddr ip.addr)))

def scopeArrayBytes (scopeId : ℕ) : List UInt8 := if scopeId = 0 then [] else [header cborArray 3]

def scopeBytes (scopeId : ℕ) : List UInt8 :=
  if scopeId = 0 then [] else integerBytes cborInteger 32 ++ integerBytes cborInteger scopeId

def fractionBytes (neg : ℤ) : List UInt8 :=
  if neg = 0 then [] else int64Bytes (-9) ++ int64Bytes neg

def timeDeltaBytes (ns : ℤ) : List UInt8 :=
  tagBytes .timeDelta ++ (integerBytes cborMap (1 + if ns.tmod nsec = 0 then 0 else 1) ++
    (int64Bytes 1 ++ (int64Bytes (ns.tdiv nsec) ++ fractionBytes (ns.tmod nsec))))

mutual

/-- The bytes that a box is written as, for the types that have a CBOR form. -/
def boxBytes : FrValueBox → List UInt8
  | .bool value => [header cborFloat (20 + value.toNat)]
  | .integer t vbUint64 => integerBoxBytes t vbUint64
  | .octets value => octetsBytes value
  | .string value => integerBytes cborString value.length ++ value
  | .ethernet addr => tagBytes .ethernet ++ octetsBytes addr
  | .date ns => tagBytes .date ++ int64Bytes (frUnixTimeToSec ns)
  | .timeDelta ns => timeDeltaBytes ns
  | .ip .ipv4Addr ip => tagBytes (.ip .ipv4Addr) ++
      (scopeArrayBytes ip.scopeId ++ (octetsBytes ip.addr ++ scopeBytes ip.scopeId))
  | .ip .ipv6Addr ip => scopeArrayBytes ip.scopeId ++
      (tagBytes (.ip .ipv6Addr) ++ (octetsBytes ip.addr ++ scopeBytes ip.scopeId))
  | .ip .ipv4Prefix ip => prefixBytes .ipv4Prefix ip
  | .ip .ipv6Prefix ip => prefixBytes .ipv6Prefix ip
  | .float32 bits => header cborFloat cbor4Byte :: octetsBytes (nboBytes 4 bits.toNat).reverse
  | .float64 bits => header cborFloat cbor8Byte :: octetsBytes (nboBytes 8 bits.toNat).reverse
  | .structural .group members => integerBytes cborArray members.length ++ membersBytes members
  | _ => []

def membersBytes : List FrValueBox → List UInt8
  | [] => []
  | child :: rest => boxBytes child ++ membersBytes rest

end

variable {vb out : FrValueBox} {data : ℕ} {v : ℤ}

section Writes

theorem octetsBytes_ne_nil {data : List UInt8} : octetsBytes data ≠ [] :=
  append_ne_nil_of_left_ne_nil integerBytes_ne_nil _

theorem int64Bytes_ne_nil {neg : ℤ} : int64Bytes neg ≠ [] := by
  unfold int64Bytes
  split_ifs <;> exact integerBytes_ne_nil

theorem appends_integer (type data : ℕ) :
    Appends (fun work => returnSlen work (cborEncodeInteger work type data))
      (integerBytes type data) :=
  (cborEncodeInteger_writes type data).call integerBytes_ne_nil

theorem appends_some (data : List UInt8) : Appends (fun work => frDbuffInSome work data) data := by
  unfold frDbuffInSome
  by_cases h : 0 < data.length
  · simpa only [if_pos h] using appends_in data
  · obtain rfl : data = [] := by simpa using h
    exact appends_nil

theorem cborEncodeOctets_writes (data : List UInt8) :
    Writes (fun dbuff => cborEncodeOctets dbuff data) (octetsBytes data) :=
  ((appends_integer cborOctets data.length).bind (appends_some data)).writes.congr fun dbuff => by
    simp [cborEncodeOctets]

theorem cborEncodeInt64_writes (neg : ℤ) :
    Writes (fun dbuff => cborEncodeInt64 dbuff neg) (int64Bytes neg) := by
  unfold cborEncodeInt64 int64Bytes
  split_ifs
  · exact (appends_integer cborInteger neg.toNat).writes
  · exact (appends_integer cborNegative (-(neg + 1)).toNat).writes

theorem encodeIntegerBox_writes (t : IntType) (vbUint64 : BitVec 64) :
    Writes (fun dbuff => encodeIntegerBox dbuff t vbUint64) (integerBoxBytes t vbUint64) := by
  have hneg : ∀ neg, Writes (fun dbuff => encodeIntegerBox.encodeNeg dbuff neg) (signedBytes neg) := by
    intro neg
    unfold encodeIntegerBox.encodeNeg signedBytes
    split_ifs <;> exact cborEncodeInteger_writes _ _
  cases t <;> first | exact cborEncodeInteger_writes _ _ | exact hneg _

theorem appends_octets (data : List UInt8) :
    Appends (fun work => returnSlen work (cborEncodeOctets work data)) (octetsBytes data) :=
  (cborEncodeOctets_writes data).call octetsBytes_ne_nil

theorem appends_int64 (neg : ℤ) :
    Appends (fun work => returnSlen work (cborEncodeInt64 work neg)) (int64Bytes neg) :=
  (cborEncodeInt64_writes neg).call int64Bytes_ne_nil

theorem appends_tag (type : FrType) :
    Appends (fun work => returnSlen work (cborEncodeTag work type)) (tagBytes type) :=
  appends_integer cborTag (cborTypeToTag type)

theorem appends_fraction (neg : ℤ) :
    Appends (fun work => encodeFraction work neg) (fractionBytes neg) := by
  unfold encodeFraction fractionBytes
  split_ifs
  · exact appends_nil
  · exact (appends_int64 (-9)).bind (appends_int64 neg)

theorem encodeTimeDelta_writes (ns : ℤ) :
    Writes (fun dbuff => encodeTimeDelta dbuff ns) (timeDeltaBytes ns) :=
  ((appends_tag .timeDelta).bind ((appends_integer cborMap _).bind ((appends_int64 1).bind
    ((appends_int64 (ns.tdiv nsec)).bind (appends_fraction (ns.tmod nsec)))))).writes.congr
    fun dbuff => by simp [encodeTimeDelta]

theorem encodePrefix_writes (t : IpType) (ip : FrIpaddr) :
    Writes (fun dbuff => encodePrefix dbuff t ip) (prefixBytes t ip) :=
  ((appends_tag (.ip t)).bind ((appends_integer cborArray 2).bind
    ((appends_integer cborInteger ip.prefixLength).bind
      (appends_octets (trimmedAddr ip.addr))))).writes.congr fun dbuff => by
    simp [encodePrefix, cborEncodeArray]

theorem appends_scopeArray (scopeId : ℕ) :
    Appends (fun work => encodeScopeArray work scopeId) (scopeArrayBytes scopeId) := by
  unfold encodeScopeArray scopeArrayBytes
  split_ifs
  · exact appends_nil
  · exact appends_in _

theorem appends_scope (scopeId : ℕ) :
    Appends (fun work => encodeScope work scopeId) (scopeBytes scopeId) := by
  unfold encodeScope scopeBytes
  split_ifs
  · exact appends_nil
  · exact (appends_integer cborInteger 32).bind (appends_integer cborInteger scopeId)

theorem encodeIpv4Addr_writes (ip : FrIpaddr) :
    Writes (fun dbuff => encodeIpv4Addr dbuff ip) (boxBytes (.ip .ipv4Addr ip)) := by
  rw [boxBytes]
  exact ((appends_tag (.ip .ipv4Addr)).bind ((appends_scopeArray ip.scopeId).bind
    ((appends_octets ip.addr).bind (appends_scope ip.scopeId)))).writes.congr fun dbuff => by
    simp [encodeIpv4Addr]

theorem encodeIpv6Addr_writes (ip : FrIpaddr) :
    Writes (fun dbuff => encodeIpv6Addr dbuff ip) (boxBytes (.ip .ipv6Addr ip)) := by
  rw [boxBytes]
  exact ((appends_scopeArray ip.scopeId).bind ((appends_tag (.ip .ipv6Addr)).bind
    ((appends_octets ip.addr).bind (appends_scope ip.scopeId)))).writes.congr fun dbuff => by
    simp [encodeIpv6Addr]

theorem encodeFloat_writes (info : ℕ) (octets : List UInt8) :
    Writes (fun dbuff => encodeFloat dbuff info octets)
      (header cborFloat info :: octetsBytes octets) :=
  ((appends_in [header cborFloat info]).bind (appends_octets octets)).writes.congr fun dbuff => by
    simp [encodeFloat]

/-- The box and all boxes in it are of a type that has a CBOR form. -/
inductive Encodable : FrValueBox → Prop
  | bool (value : Bool) : Encodable (.bool value)
  | integer (t : IntType) (vbUint64 : BitVec 64) : Encodable (.integer t vbUint64)
  | octets (value : List UInt8) : Encodable (.octets value)
  | string (value : List UInt8) : Encodable (.string value)
  | ethernet (addr : List UInt8) : Encodable (.ethernet addr)
  | date (ns : ℕ) : Encodable (.date ns)
  | timeDelta (ns : ℤ) : Encodable (.timeDelta ns)
  | ip (t : IpType) (addr : FrIpaddr) : Encodable (.ip t addr)
  | float32 (bits : BitVec 32) : Encodable (.float32 bits)
  | float64 (bits : BitVec 64) : Encodable (.float64 bits)
  | group {members : List FrValueBox} (h : ∀ child ∈ members, Encodable child) :
    Encodable (.structural .group members)

theorem boxBytes_ne_nil (h : Encodable vb) : boxBytes vb ≠ [] := by
  cases h with
  | integer t cell =>
    rw [boxBytes, integerBoxBytes, signedBytes]
    split_ifs <;> exact integerBytes_ne_nil
  | ip t addr =>
    cases t <;> simp [boxBytes, prefixBytes, tagBytes, integerBytes_ne_nil]
  | _ => simp [boxBytes, octetsBytes, tagBytes, timeDeltaBytes, integerBytes_ne_nil]

theorem encodeMembers_appends {members : List FrValueBox} (h : ∀ child ∈ members, Encodable child ∧
      Writes (fun dbuff => frCborEncodeValueBox dbuff child) (boxBytes child)) :
    Appends (fun work => encodeMembers work members) (membersBytes members) := by
  induction members with
  | nil =>
    exact appends_nil
  | cons child rest ih =>
    obtain ⟨hchild, hwrites⟩ := h child (by simp)
    exact (hwrites.call (boxBytes_ne_nil hchild)).bind (ih fun c hc => h c (by simp [hc]))

theorem encodeValueBox_writes (h : Encodable vb) :
    Writes (fun dbuff => frCborEncodeValueBox dbuff vb) (boxBytes vb) := by
  induction h with
  | bool value =>
    exact (appends_in _).writes
  | integer t cell =>
    exact encodeIntegerBox_writes t cell
  | octets value =>
    exact cborEncodeOctets_writes value
  | string value =>
    exact ((appends_integer cborString value.length).bind (appends_some value)).writes.congr
      fun dbuff => by simp [frCborEncodeValueBox, encodeString]
  | ethernet addr =>
    exact ((appends_tag .ethernet).bind (appends_octets addr)).writes.congr
      fun dbuff => by simp [frCborEncodeValueBox, encodeEthernet]
  | date ns =>
    exact ((appends_tag .date).bind (appends_int64 _)).writes.congr
      fun dbuff => by simp [frCborEncodeValueBox, encodeDate]
  | timeDelta ns =>
    exact encodeTimeDelta_writes ns
  | ip t addr =>
    cases t <;> simp only [frCborEncodeValueBox]
    · exact encodeIpv4Addr_writes addr
    · exact encodePrefix_writes .ipv4Prefix addr
    · exact encodeIpv6Addr_writes addr
    · exact encodePrefix_writes .ipv6Prefix addr
  | float32 bits =>
    exact encodeFloat_writes cbor4Byte _
  | float64 bits =>
    exact encodeFloat_writes cbor8Byte _
  | @group members hmembers ih =>
    have hrest := encodeMembers_appends fun child hc => ⟨hmembers child hc, ih child hc⟩
    simp only [frCborEncodeValueBox, boxBytes]
    by_cases hlen : members.length = 0
    · obtain rfl : members = [] := eq_nil_of_length_eq_zero hlen
      simpa [integerBytes, membersBytes] using (appends_in [header cborArray 0]).writes
    · simp only [if_neg hlen]
      exact ((appends_integer cborArray members.length).bind hrest).writes.congr fun dbuff => by simp

end Writes

section RoundTrips

/-- The box without the bytes of the union that its type does not use, and
without the scope of an IPv4 address, which `fr_ipaddr_cmp` does not compare. -/
def FrValueBox.value : FrValueBox → FrValueBox
  | .integer t vbUint64 => .integer t ((vbUint64.setWidth t.width).setWidth 64)
  | .ip t addr => .ip t { addr with scopeId := if addr.v6 then addr.scopeId else 0 }
  | vb => vb

/-- The bytes that the box is written as are read, with its type and as far as
the last of them, as a box with the same value. -/
def RoundTrips (fl : FloatOps) (vb : FrValueBox) : Prop :=
  ∃ bytes, Writes (fun dbuff => frCborEncodeValueBox dbuff vb) bytes ∧ ∃ out,
    Returns (fun fuel => (frCborDecodeValueBox fl fuel bytes vb.type).toOption) (out, []) ∧
      out.value = vb.value

variable {fl : FloatOps}

/-- A box survives if its bytes are read back in every recursion depth. -/
theorem roundTrips_of_reads (h : Encodable vb) (bound : ℕ) (hreads : ∀ fuel, bound ≤ fuel →
      frCborDecodeValueBox fl fuel (boxBytes vb) vb.type = .ok (out, []))
    (hvalue : out.value = vb.value) : RoundTrips fl vb := by
  refine ⟨boxBytes vb, encodeValueBox_writes h, out, ⟨bound, fun fuel hfuel => ?_⟩, hvalue⟩
  beta_reduce
  rw [hreads fuel hfuel]
  rfl

/-- What a box that survives is read as, in some recursion depth. -/
theorem RoundTrips.exists_decode (h : RoundTrips fl vb) (hvb : Encodable vb) :
    ∃ fuel out, frCborDecodeValueBox fl (fuel + 1) (boxBytes vb) vb.type = .ok (out, []) ∧
      out.value = vb.value := by
  obtain ⟨bytes, hwrites, out, ⟨bound, hreturns⟩, hvalue⟩ := h
  obtain rfl := hwrites.unique (encodeValueBox_writes hvb)
  have hfuel := hreturns (bound + 1) (by omega)
  beta_reduce at hfuel
  refine ⟨bound, out, ?_, hvalue⟩
  cases hdecode : frCborDecodeValueBox fl (bound + 1) (boxBytes vb) vb.type with
  | error failure =>
    rw [hdecode] at hfuel
    cases hfuel
  | ok result =>
    rw [hdecode] at hfuel
    exact congrArg Except.ok (Option.some.inj hfuel)

end RoundTrips

section Integers

variable {fl : FloatOps} {t : IntType} {cell : BitVec 64}

theorem decode_integer (fl : FloatOps) (t : IntType) (fuel : ℕ) {declared : FrType}
    (hdata : data < 2 ^ 64) (rest : List UInt8)
    (hres : resolvedType declared (integerBytes cborInteger data ++ rest).tail = .integer t) :
    frCborDecodeValueBox fl (fuel + 1) (integerBytes cborInteger data ++ rest) declared =
      if t.max < data then .error ⟨-1, some (.tooLarge (.integer t))⟩
      else .ok (t.store data, rest) := by
  obtain ⟨info, payload, hbytes, hinfo, hdecode⟩ := integerBytes_spec cborInteger hdata
  rw [hbytes, cons_append, tail_cons] at hres
  rw [hbytes, cons_append, decodeValueBox_scalar hres (by simp) (by decide) (by decide) hinfo]
  have hrest : rest.length ≤ (header cborInteger info :: (payload ++ rest)).length := by
    simp only [length_cons, length_append]
    omega
  change decodeIntegerBox _ _ _ _ = _
  rw [decodeIntegerBox, hdecode, returnIfNegative_ok, ok_bind]
  simp only [frDbuffSetIn, if_pos hrest, integerBox]
  split_ifs <;> rfl

theorem decode_negative (fl : FloatOps) (fuel : ℕ) (hdata : data < 2 ^ 63) (ht : t.isSigned = true)
    (rest : List UInt8) :
    frCborDecodeValueBox fl (fuel + 1) (integerBytes cborNegative data ++ rest) (.integer t) =
      if -(data : ℤ) - 1 < t.min then .error ⟨-1, some (.tooLarge (.integer t))⟩
      else .ok (t.store (-(data : ℤ) - 1), rest) := by
  obtain ⟨info, payload, hbytes, hinfo, hdecode⟩ :=
    integerBytes_spec cborNegative (hdata.trans (by norm_num))
  rw [hbytes, cons_append,
    decodeValueBox_scalar (resolvedType_declared (by simp) _) (by simp) (by decide) (by decide) hinfo]
  have hrest : rest.length ≤ (header cborNegative info :: (payload ++ rest)).length := by
    simp only [length_cons, length_append]
    omega
  change decodeNegativeBox _ _ _ _ = _
  rw [decodeNegativeBox, hdecode, returnIfNegative_ok, ok_bind]
  simp only [if_neg (Nat.not_le.mpr hdata), frDbuffSetIn, if_pos hrest, negativeBox, ht,
    Bool.true_eq_false, if_false]
  split_ifs <;> rfl

theorem store_value_iff : (t.store v).value = (FrValueBox.integer t cell).value ↔
    BitVec.ofInt t.width v = cell.setWidth t.width := by
  have hwidth : t.width ≤ 64 := by cases t <;> decide
  simp only [IntType.store, FrValueBox.value, FrValueBox.integer.injEq, true_and]
  constructor
  · intro h
    have := congrArg (BitVec.setWidth t.width) h
    simpa [BitVec.setWidth_setWidth_of_le, hwidth] using this
  · intro h
    rw [← h]
    simp [BitVec.setWidth_setWidth_of_le, hwidth]

/-- The number that is encoded has the lowest bit of the box. -/
theorem signedPayload_emod (ht : t.isSigned = true) :
    signedPayload t cell % 2 = (cell.toNat : ℤ) % 2 := by
  cases t with
  | int8 =>
    simp only [signedPayload, BitVec.toInt_eq_toNat_cond, BitVec.toNat_setWidth]
    split_ifs <;> omega
  | int16 =>
    simp only [signedPayload, BitVec.toInt_eq_toNat_cond, BitVec.toNat_setWidth]
    split_ifs <;> omega
  | int32 | int64 =>
    simp only [signedPayload, BitVec.toInt_eq_toNat_cond]
    split_ifs <;> omega
  | _ => cases ht

theorem ofInt_emod (h : BitVec.ofInt t.width v = cell.setWidth t.width) :
    v % 2 = (cell.toNat : ℤ) % 2 := by
  have hnat := congrArg BitVec.toNat h
  rw [BitVec.toNat_ofInt, BitVec.toNat_setWidth] at hnat
  cases t <;> simp only [IntType.width] at hnat <;> omega

theorem signedPayload_bounds (t : IntType) (cell : BitVec 64) :
    -2 ^ 63 ≤ signedPayload t cell ∧ signedPayload t cell < 2 ^ 63 := by
  have h8 := (cell.setWidth 8).toInt_lt
  have h8' := (cell.setWidth 8).le_toInt
  have h16 := (cell.setWidth 16).toInt_lt
  have h16' := (cell.setWidth 16).le_toInt
  have h64 := cell.toInt_lt
  have h64' := cell.le_toInt
  cases t <;> simp only [signedPayload] <;> omega

/-- A signed box is read as the complement of its number, if it is read at all. -/
theorem decode_signed {fuel : ℕ} {rest : List UInt8} (ht : t.isSigned = true)
    (h : frCborDecodeValueBox fl (fuel + 1) (integerBoxBytes t cell) (.integer t) =
      .ok (out, rest)) : out = t.store (-signedPayload t cell - 1) := by
  obtain ⟨hmin, hmax⟩ := signedPayload_bounds t cell
  rw [integerBoxBytes, if_pos ht, signedBytes] at h
  split_ifs at h with hneg
  · have hdata : (signedPayload t cell).toNat < 2 ^ 63 := by omega
    have hdecode := decode_negative fl fuel hdata ht []
    rw [append_nil, h, Int.toNat_of_nonneg hneg] at hdecode
    split_ifs at hdecode
    cases hdecode
    rfl
  have hdata : (-(signedPayload t cell + 1)).toNat < 2 ^ 64 := by omega
  have hdecode := decode_integer fl t fuel hdata []
    (resolvedType_declared (by simp) _)
  rw [append_nil, h, Int.toNat_of_nonneg (by omega)] at hdecode
  split_ifs at hdecode
  cases hdecode
  congr 1
  omega

theorem unsignedPayload_lt (t : IntType) (cell : BitVec 64) : unsignedPayload t cell < 2 ^ 64 := by
  cases t <;> simp only [unsignedPayload] <;> omega

/-- What an unsigned box encodes fits its type, except that all of the union is
encoded for 32 bits. -/
theorem unsignedPayload_le_max_iff (ht : t.isSigned = false) :
    unsignedPayload t cell ≤ t.max ↔ (t = .uint32 → cell.toNat < 2 ^ 32) := by
  cases t <;> simp only [unsignedPayload, IntType.max, IntType.isSigned, IntType.width,
    reduceCtorEq, false_implies, forall_const, Bool.false_eq_true, if_false, iff_true]
  all_goals first | omega | cases ht

theorem ofInt_unsignedPayload (ht : t.isSigned = false) :
    BitVec.ofInt t.width (unsignedPayload t cell) = cell.setWidth t.width := by
  apply BitVec.eq_of_toNat_eq
  rw [BitVec.toNat_ofInt, BitVec.toNat_setWidth]
  cases t <;> simp only [unsignedPayload, IntType.width, BitVec.toNat_setWidth]
  all_goals omega

/-- An integer box survives exactly if its type is unsigned, and if nothing is
left in the upper half of the union of a 32-bit box. -/
theorem integer_roundTrips_iff (fl : FloatOps) (t : IntType) (vbUint64 : BitVec 64) :
    RoundTrips fl (.integer t vbUint64) ↔
      t.isSigned = false ∧ (t = .uint32 → vbUint64.toNat < 2 ^ 32) := by
  constructor
  · intro h
    obtain ⟨fuel, out, hdecode, hvalue⟩ := h.exists_decode (.integer t vbUint64)
    rw [boxBytes, FrValueBox.type] at hdecode
    cases ht : t.isSigned with
    | true =>
      -- the lowest bit of the box comes back inverted
      rw [decode_signed ht hdecode, store_value_iff] at hvalue
      have hbit := ofInt_emod hvalue
      have hpayload : signedPayload t vbUint64 % 2 = _ := signedPayload_emod ht
      omega
    | false =>
      refine ⟨rfl, (unsignedPayload_le_max_iff ht).mp ?_⟩
      rw [integerBoxBytes, ht, if_neg (by simp)] at hdecode
      have hread := decode_integer fl t fuel (unsignedPayload_lt t vbUint64) []
        (resolvedType_declared (by simp) _)
      rw [append_nil, hdecode] at hread
      split_ifs at hread with hmax
      omega
  · rintro ⟨ht, hcell⟩
    have hmax := (unsignedPayload_le_max_iff ht).mpr hcell
    refine roundTrips_of_reads (.integer t vbUint64) 1 (fun fuel hfuel => ?_)
      (store_value_iff.mpr (ofInt_unsignedPayload ht))
    obtain ⟨n, rfl⟩ := Nat.exists_eq_add_of_le' hfuel
    rw [boxBytes, integerBoxBytes, ht, if_neg (by simp), FrValueBox.type]
    have hread := decode_integer fl t n (unsignedPayload_lt t vbUint64) []
      (resolvedType_declared (by simp) _)
    rwa [append_nil, if_neg (by omega)] at hread

/-- The int8 number 5 is written as 0x25, which is read as -6. -/
theorem int8_five_reads_minus_six :
    (frCborEncodeValueBox ⟨[], 16⟩ (IntType.int8.store 5)).map (fun d => d.1.used) = .ok [0x25] ∧
      frCborDecodeValueBox .unused 1 [0x25] (.integer .int8) = .ok (IntType.int8.store (-6), []) ∧
      (IntType.int8.store (-6)).value ≠ (IntType.int8.store 5).value := by
  refine ⟨rfl, rfl, ?_⟩
  rw [IntType.store, IntType.store, FrValueBox.value, FrValueBox.value, ne_eq,
    FrValueBox.integer.injEq]
  decide

end Integers

end FreeRadius.Cbor
