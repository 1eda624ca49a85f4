import FreeRadius.Cbor.Boxes

/-!
# Tagged values

Times and addresses are a tag and a value of another type. An IPv6 address and
a date are never read back, since their decoders move the buffer back to where
they found it, and the fraction of a negative time delta is lost.
-/

namespace FreeRadius.Cbor

open Library List

variable {fl : FloatOps}

section Parts

variable {type : FrType} {out vb : FrValueBox} {bytes : List UInt8}

/-- Behind the tag of its type, a box is what the decoder of the type reads. -/
theorem decodeValueBox_tag (htag : cborTypeToTag type ≠ 0) (fuel : ℕ) (rest : List UInt8) :
    frCborDecodeValueBox fl (fuel + 1) (tagBytes type ++ rest) type =
      (returnIfNegative (tagBytes type ++ rest) rest (cborDecodeType type rest) >>= fun result =>
        frDbuffSetIn (tagBytes type ++ rest) result.2 result.1) := by
  have htype : type ≠ .null := by
    rintro rfl
    exact htag rfl
  have hlt : cborTypeToTag type < 2 ^ 64 := by
    unfold cborTypeToTag
    split <;> norm_num
  obtain ⟨info, payload, hbytes, hinfo, hdecode⟩ := integerBytes_spec cborTag hlt
  rw [tagBytes, hbytes, cons_append,
    decodeValueBox_scalar (resolvedType_declared htype _) htype (by decide) (by decide) hinfo]
  rw [show decodeScalarBox fl cborTag = decodeTagBox from rfl, decodeTagBox, hdecode,
    returnIfNegative_ok, ok_bind]
  simp [if_neg htag]

theorem decode_behindTag (vb : FrValueBox) (htag : cborTypeToTag vb.type ≠ 0)
    (hbytes : boxBytes vb = tagBytes vb.type ++ bytes)
    (h : Reads (cborDecodeType vb.type) bytes out) (fuel : ℕ) :
    frCborDecodeValueBox fl (fuel + 1) (boxBytes vb) vb.type = .ok (out, []) := by
  have hread := h []
  rw [append_nil] at hread
  rw [hbytes, decodeValueBox_tag htag, hread, returnIfNegative_ok, ok_bind, frDbuffSetIn,
    if_pos (by simp)]

theorem roundTrips_iff_of_reads (hvb : Encodable vb) (htag : cborTypeToTag vb.type ≠ 0)
    (hbytes : boxBytes vb = tagBytes vb.type ++ bytes)
    (h : Reads (cborDecodeType vb.type) bytes out) : RoundTrips fl vb ↔ out.value = vb.value := by
  constructor
  · intro hround
    obtain ⟨fuel, out', hdecode, hvalue⟩ := hround.exists_decode hvb
    rw [decode_behindTag vb htag hbytes h] at hdecode
    cases hdecode
    exact hvalue
  · intro hvalue
    refine roundTrips_of_reads hvb 1 (fun fuel hfuel => ?_) hvalue
    obtain ⟨n, rfl⟩ := Nat.exists_eq_add_of_le' hfuel
    exact decode_behindTag vb htag hbytes h n

theorem not_roundTrips_of_error {failure : Failure} (htag : cborTypeToTag vb.type ≠ 0)
    (hvb : Encodable vb) (hbytes : boxBytes vb = tagBytes vb.type ++ bytes)
    (h : cborDecodeType vb.type bytes = .error failure) : ¬RoundTrips fl vb := by
  intro hround
  obtain ⟨fuel, out, hdecode, -⟩ := hround.exists_decode hvb
  rw [hbytes, decodeValueBox_tag htag, h] at hdecode
  cases hdecode

theorem cborDecodeOctetsMemcpy_reads {data : List UInt8} {dstMin dstMax : ℕ}
    (hmin : dstMin ≤ data.length) (hmax : data.length ≤ dstMax) (hlen : data.length < 2 ^ 64) :
    Reads (cborDecodeOctetsMemcpy dstMin dstMax) (octetsBytes data) data := by
  intro rest
  have hcount := cborDecodeCount_reads (some 0) (by decide : cborOctets < 8) hlen (data ++ rest)
  rw [cborDecodeOctetsMemcpy, octetsBytes, append_assoc, hcount, returnIfNegative_ok, ok_bind]
  simp only [if_neg (Nat.not_lt.mpr hmin), if_neg (Nat.not_lt.mpr hmax), reads_memcpy data rest,
    ok_bind]
  rw [← append_assoc]
  exact frDbuffSetIn_append _ rest data

theorem cborDecodeInt64_reads {neg : ℤ} (hmin : -2 ^ 63 ≤ neg) (hmax : neg < 2 ^ 63) :
    Reads (cborDecodeInt64 type) (int64Bytes neg) neg := by
  intro rest
  unfold int64Bytes
  split_ifs with hneg
  · obtain ⟨info, payload, hbytes, hinfo, hdecode⟩ :=
      integerBytes_spec cborInteger (by omega : neg.toNat < 2 ^ 64)
    have hbig : ¬2 ^ 63 ≤ neg.toNat := by omega
    have hmajor : majorOf (header cborInteger info) = cborInteger :=
      majorOf_header (by decide) (by omega)
    have hinfo' : infoOf (header cborInteger info) = info := infoOf_header (by decide) (by omega)
    rw [hbytes, cons_append, cborDecodeInt64, frDbuffOut_cons, ok_bind]
    simp only [hmajor, if_pos, hinfo', hdecode, returnIfNegative_ok, ok_bind, if_neg hbig,
      Int.toNat_of_nonneg hneg]
    exact frDbuffSetIn_append (header cborInteger info :: payload) rest neg
  · obtain ⟨info, payload, hbytes, hinfo, hdecode⟩ :=
      integerBytes_spec cborNegative (by omega : (-(neg + 1)).toNat < 2 ^ 64)
    have hbig : ¬2 ^ 63 ≤ (-(neg + 1)).toNat := by omega
    have hmajor : majorOf (header cborNegative info) = cborNegative :=
      majorOf_header (by decide) (by omega)
    have hinfo' : infoOf (header cborNegative info) = info := infoOf_header (by decide) (by omega)
    have hvalue : -(((-(neg + 1)).toNat : ℕ) : ℤ) - 1 = neg := by omega
    rw [hbytes, cons_append, cborDecodeInt64, frDbuffOut_cons, ok_bind]
    simp only [hmajor, hinfo', hdecode, returnIfNegative_ok, ok_bind, if_neg hbig, hvalue,
      if_neg (show ¬cborNegative = cborInteger by decide), if_pos]
    exact frDbuffSetIn_append (header cborNegative info :: payload) rest neg

end Parts

section Trim

theorem getElem?_of_trimEnd_lt {addr : List UInt8} {last i : ℕ} (hi : trimEnd addr last < i)
    (hlast : i ≤ last) : addr[i]? = some 0 := by
  induction last with
  | zero => omega
  | succ last ih =>
    unfold trimEnd at hi
    split_ifs at hi with hzero
    · by_cases heq : i = last + 1
      · rwa [heq]
      · exact ih hi (by omega)
    · omega

theorem trimmedAddr_append (addr : List UInt8) :
    trimmedAddr addr ++ replicate (addr.length - (trimmedAddr addr).length) 0 = addr := by
  obtain ⟨k, hk⟩ : ∃ k, k = trimEnd addr (addr.length - 1) +
      if addr[trimEnd addr (addr.length - 1)]? = some 0 then 0 else 1 := ⟨_, rfl⟩
  have htrimmed : trimmedAddr addr = addr.take k := by rw [hk, trimmedAddr]
  have hdrop : addr.drop k = replicate (addr.length - k) 0 := by
    rw [eq_replicate_iff]
    refine ⟨length_drop, fun b hb => ?_⟩
    obtain ⟨i, hi, rfl⟩ := mem_iff_getElem.mp hb
    rw [length_drop] at hi
    have hzero : addr[k + i]? = some 0 := by
      by_cases heq : k + i = trimEnd addr (addr.length - 1)
      · -- only an octet that is zero stays out where the loop stops
        rw [heq]
        by_contra hne
        rw [if_neg hne] at hk
        omega
      · refine getElem?_of_trimEnd_lt (?_ : trimEnd addr (addr.length - 1) < k + i) (by omega)
        split_ifs at hk <;> omega
    rw [getElem?_eq_getElem (by omega), Option.some.injEq] at hzero
    rw [getElem_drop, hzero]
  have hlen : (addr.take k).length = min k addr.length := length_take
  rw [htrimmed, hlen, show addr.length - min k addr.length = addr.length - k by omega, ← hdrop,
    take_append_drop]

theorem length_trimmedAddr (addr : List UInt8) : (trimmedAddr addr).length ≤ addr.length := by
  have := congrArg List.length (trimmedAddr_append addr)
  rw [length_append] at this
  omega

end Trim

section Addresses

theorem cborDecodeEthernet_reads {addr : List UInt8} (hlen : addr.length = 6) :
    Reads cborDecodeEthernet (octetsBytes addr) (.ethernet addr) := by
  intro rest
  rw [cborDecodeEthernet, cborDecodeOctetsMemcpy_reads (by omega) (by omega) (by omega) rest]
  rfl

theorem decodeInterface_octets {data : List UInt8} (hlen : data.length < 2 ^ 64)
    (rest : List UInt8) : decodeInterface (octetsBytes data ++ rest) =
      .ok (0, octetsBytes data ++ rest) := by
  obtain ⟨info, payload, hbytes, hinfo, -⟩ := integerBytes_spec cborOctets hlen
  have hmajor : majorOf (header cborOctets info) ≠ cborArray := by
    rw [majorOf_header (by decide) (by omega)]
    decide
  rw [octetsBytes, hbytes, cons_append, cons_append, decodeInterface, if_neg hmajor]

theorem cborDecodeIpv4Addr_reads {ip : FrIpaddr} (hv6 : ip.v6 = false) (hlen : ip.addr.length = 4)
    (hinit : ip.prefixLength = 32) (hscope : ip.scopeId < 2 ^ 32) :
    Reads cborDecodeIpv4Addr
      (scopeArrayBytes ip.scopeId ++ (octetsBytes ip.addr ++ scopeBytes ip.scopeId)) ip := by
  intro rest
  obtain ⟨v6, addr, prefixLength, scopeId⟩ := ip
  obtain rfl : v6 = false := hv6
  obtain rfl : prefixLength = 32 := hinit
  dsimp only at hlen hscope ⊢
  have haddr := @cborDecodeOctetsMemcpy_reads addr 4 4 (by omega) (by omega) (by omega)
  have hcall := haddr.call octetsBytes_ne_nil
  by_cases hzero : scopeId = 0
  · subst hzero
    rw [scopeArrayBytes, scopeBytes, if_pos rfl, if_pos rfl, nil_append, append_nil,
      cborDecodeIpv4Addr, decodeInterface_octets (by omega) rest, ok_bind]
    simp only [hcall, ok_bind, if_true]
    exact frDbuffSetIn_append _ rest _
  rw [scopeArrayBytes, scopeBytes, if_neg hzero, if_neg hzero, cborDecodeIpv4Addr, append_assoc,
    append_assoc, singleton_append, show ∀ bytes,
    decodeInterface (header cborArray 3 :: bytes) = .ok (3, bytes) from fun _ => rfl, ok_bind]
  simp only [hcall, ok_bind, (by decide : ¬3 = 0), if_false]
  have hbits := cborDecodeCount_reads (some 0) (by decide : cborInteger < 8)
    (by norm_num : 32 < 2 ^ 64)
  have hid := cborDecodeCount_reads (some 32) (by decide : cborInteger < 8)
    (by omega : scopeId < 2 ^ 64)
  rw [decodeScope, append_assoc (integerBytes cborInteger 32), hbits.call integerBytes_ne_nil,
    ok_bind]
  simp only [ne_eq, not_true_eq_false, if_false, (by decide : ¬3 = 2), hid.call integerBytes_ne_nil,
    ok_bind, Nat.mod_eq_of_lt hscope]
  rw [← append_assoc, ← append_assoc, ← cons_append, frDbuffSetIn_append]

/-- The buffer is moved back, so that reading an IPv6 address always fails. -/
theorem cborDecodeIpv6Addr_error {addr : List UInt8} (hlen : addr.length = 16) :
    ∃ failure, cborDecodeIpv6Addr (octetsBytes addr) = .error failure := by
  have haddr := @cborDecodeOctetsMemcpy_reads addr 16 16 (by omega) (by omega) (by omega)
  have hcall := haddr.call octetsBytes_ne_nil (octetsBytes addr) []
  have hinterface := decodeInterface_octets (by omega : addr.length < 2 ^ 64) []
  have hpos : ¬(octetsBytes addr).length ≤ 0 := by
    have := length_pos_iff.mpr (@octetsBytes_ne_nil addr)
    omega
  rw [append_nil] at hcall hinterface
  refine ⟨⟨0 - (octetsBytes addr).length, none⟩, ?_⟩
  rw [cborDecodeIpv6Addr, hinterface, ok_bind]
  simp only [hcall, ok_bind, if_true, frDbuffSetIn, length_nil, if_neg hpos]
  rfl

theorem decodePrefix_reads {bits : ℕ} {ip : FrIpaddr} (hbits : bits < 2 ^ 32)
    (hlen : ip.addr.length = bits / 8) (hinit : ip.prefixLength ≤ bits) :
    Reads (decodePrefix ip.v6 bits)
      (integerBytes cborArray 2 ++
        (integerBytes cborInteger ip.prefixLength ++ octetsBytes (trimmedAddr ip.addr)))
      { ip with scopeId := 0 } := by
  intro rest
  have htrim := length_trimmedAddr ip.addr
  have hlength := cborDecodeCount_reads (some 0) (by decide : cborInteger < 8)
    (by omega : ip.prefixLength < 2 ^ 64)
  have haddr := @cborDecodeOctetsMemcpy_reads (trimmedAddr ip.addr) 0 (bits / 8) (by omega)
    (by omega) (by omega)
  have hpad : trimmedAddr ip.addr ++ replicate (bits / 8 - (trimmedAddr ip.addr).length) 0 =
      ip.addr := by
    rw [← hlen]
    exact trimmedAddr_append ip.addr
  rw [show integerBytes cborArray 2 = [header cborArray 2] from rfl, append_assoc, append_assoc,
    singleton_append, decodePrefix, frDbuffOut_cons, ok_bind]
  simp only [ne_eq, not_true_eq_false, if_false, hlength.call integerBytes_ne_nil, ok_bind,
    if_neg (Nat.not_lt.mpr hinit), haddr.call octetsBytes_ne_nil, hpad]
  rw [← append_assoc, ← cons_append]
  exact frDbuffSetIn_append _ rest _

end Addresses

section Times

/-- The buffer is moved back, so that reading a date always fails. -/
theorem cborDecodeDate_error {sec : ℤ} (hmin : -2 ^ 63 ≤ sec) (hmax : sec < 2 ^ 63) :
    ∃ failure, cborDecodeDate (int64Bytes sec) = .error failure := by
  have hread := @cborDecodeInt64_reads .date sec hmin hmax
  have hcall := hread.call int64Bytes_ne_nil (int64Bytes sec) []
  have hpos : ¬(int64Bytes sec).length ≤ 0 := by
    have := length_pos_iff.mpr (@int64Bytes_ne_nil sec)
    omega
  rw [append_nil] at hcall
  refine ⟨⟨0 - (int64Bytes sec).length, none⟩, ?_⟩
  rw [cborDecodeDate, hcall, ok_bind]
  simp only [frDbuffSetIn, length_nil, if_neg hpos]
  rfl

theorem tdiv_nsec_spec (ns : ℤ) : ns = ns.tdiv nsec * 1000000000 + ns.tmod nsec ∧
    (0 ≤ ns → 0 ≤ ns.tmod nsec ∧ ns.tmod nsec < 1000000000) ∧
    (ns ≤ 0 → -1000000000 < ns.tmod nsec ∧ ns.tmod nsec ≤ 0) := by
  have hsum : ns.tdiv nsec * nsec + ns.tmod nsec = ns := Int.tdiv_mul_add_tmod ns nsec
  have hlt := Int.tmod_lt_of_pos ns (by decide : 0 < nsec)
  have hneg := Int.tmod_lt_of_pos (-ns) (by decide : 0 < nsec)
  rw [Int.neg_tmod] at hneg
  refine ⟨hsum.symm, fun h => ⟨Int.tmod_nonneg nsec h, hlt⟩, fun h => ?_⟩
  have hnonneg := Int.tmod_nonneg nsec (by omega : 0 ≤ -ns)
  rw [Int.neg_tmod] at hnonneg
  simp only [nsec] at hneg hnonneg ⊢
  omega

/-- The fraction that comes back: a negative one is not accepted. -/
def readFraction (neg : ℤ) : ℤ := if neg < 0 then 0 else neg

theorem decodeFraction_reads {neg : ℤ} (hmin : -1000000000 < neg) (hmax : neg < 1000000000)
    (dbuff rest : List UInt8) :
    decodeFraction dbuff (int64Bytes (-9) ++ (int64Bytes neg ++ rest)) =
      .ok ((nsec, readFraction neg), rest) := by
  have hkey := @cborDecodeInt64_reads .timeDelta (-9) (by norm_num) (by norm_num)
  have hneg := @cborDecodeInt64_reads .timeDelta neg (by omega) (by omega)
  have hiff : (neg < 0 ∨ nsec < neg) ↔ neg < 0 := by
    simp only [nsec]
    omega
  rw [decodeFraction, hkey (int64Bytes neg ++ rest), returnIfNegative_ok, ok_bind]
  simp only [fractionScale, hneg rest, returnIfNegative_ok, ok_bind, hiff, readFraction]

theorem cborDecodeTimeDelta_reads {ns : ℤ} (hmin : -2 ^ 63 ≤ ns) (hmax : ns < 2 ^ 63) :
    Reads cborDecodeTimeDelta
      (integerBytes cborMap (1 + if ns.tmod nsec = 0 then 0 else 1) ++
        (int64Bytes 1 ++ (int64Bytes (ns.tdiv nsec) ++ fractionBytes (ns.tmod nsec))))
      (.timeDelta (timeDeltaOf (ns.tdiv nsec) nsec (readFraction (ns.tmod nsec)))) := by
  intro rest
  obtain ⟨hsum, hpos, hneg⟩ := tdiv_nsec_spec ns
  have hkey := @cborDecodeInt64_reads .timeDelta 1 (by norm_num) (by norm_num)
  have hseconds := @cborDecodeInt64_reads .timeDelta (ns.tdiv nsec) (by omega) (by omega)
  by_cases hzero : ns.tmod nsec = 0
  · have hcount := @cborDecodeCount_reads cborMap 1 none (by decide) (by norm_num)
    rw [hzero, fractionBytes, if_pos rfl, if_pos rfl, append_nil, append_assoc, append_assoc,
      cborDecodeTimeDelta, hcount, returnIfNegative_ok, ok_bind]
    simp only [if_false, hkey _, hseconds _, returnIfNegative_ok, ok_bind, ne_eq, not_true_eq_false]
    rw [← append_assoc, ← append_assoc, frDbuffSetIn_append]
    rfl
  have hcount := @cborDecodeCount_reads cborMap 2 none (by decide) (by norm_num)
  have hfraction := @decodeFraction_reads (ns.tmod nsec) (by omega) (by omega)
  rw [fractionBytes, if_neg hzero, if_neg hzero, append_assoc, append_assoc, append_assoc,
    append_assoc, cborDecodeTimeDelta, hcount, returnIfNegative_ok, ok_bind]
  simp only [if_false, hkey _, hseconds _, returnIfNegative_ok, ok_bind, ne_eq, not_true_eq_false,
    (by omega : 1 < 2), if_true, hfraction _ _]
  rw [← append_assoc, ← append_assoc, ← append_assoc, ← append_assoc, frDbuffSetIn_append]
  rfl

/-- The value comes back unless a negative one has a fraction. -/
theorem timeDeltaOf_eq_iff {ns : ℤ} (hmin : -2 ^ 63 ≤ ns) (hmax : ns < 2 ^ 63) :
    timeDeltaOf (ns.tdiv nsec) nsec (readFraction (ns.tmod nsec)) = ns ↔
      0 ≤ ns ∨ ns.tmod nsec = 0 := by
  obtain ⟨hsum, hpos, hneg⟩ := tdiv_nsec_spec ns
  have hhigh : int64Max.tdiv nsec = 9223372036 := by decide
  have hlow : int64Min.tdiv nsec = -9223372036 := by decide
  rw [timeDeltaOf, hhigh, hlow, if_neg (by omega), if_neg (by omega), readFraction]
  simp only [nsec] at hsum hpos hneg ⊢
  split_ifs <;> omega

end Times

section RoundTrip

/-- The values that have a tag: dates of whole seconds below 2^33, 64-bit time
deltas, and addresses of the length of their family. -/
def Tagged : FrValueBox → Prop
  | .date ns => ns % 1000000000 = 0 ∧ ns / 1000000000 < 2 ^ 33
  | .timeDelta ns => -2 ^ 63 ≤ ns ∧ ns < 2 ^ 63
  | .ethernet addr => addr.length = 6
  | .ip .ipv4Addr ip =>
    ip.v6 = false ∧ ip.addr.length = 4 ∧ ip.prefixLength = 32 ∧ ip.scopeId < 2 ^ 32
  | .ip .ipv6Addr ip =>
    ip.v6 = true ∧ ip.addr.length = 16 ∧ ip.prefixLength = 128 ∧ ip.scopeId = 0
  | .ip .ipv4Prefix ip => ip.v6 = false ∧ ip.addr.length = 4 ∧ ip.prefixLength ≤ 32
  | .ip .ipv6Prefix ip => ip.v6 = true ∧ ip.addr.length = 16 ∧ ip.prefixLength ≤ 128
  | _ => False

/-- The tagged values that come back: no date, no IPv6 address, no negative time
delta that has a fraction of a second, and no IPv6 prefix that has a scope. -/
def Kept : FrValueBox → Prop
  | .date _ => False
  | .timeDelta ns => 0 ≤ ns ∨ ns.tmod nsec = 0
  | .ip .ipv6Addr _ => False
  | .ip .ipv6Prefix ip => ip.scopeId = 0
  | _ => True

/-- A prefix comes back without its scope. -/
theorem prefix_roundTrips_iff {t : IpType} {bits : ℕ} {ip : FrIpaddr}
    (ht : cborTypeToTag (.ip t) ≠ 0) (hbits : bits < 2 ^ 32)
    (hbytes : boxBytes (.ip t ip) = prefixBytes t ip)
    (hdecode : ∀ dbuff, cborDecodeType (.ip t) dbuff =
      (decodePrefix ip.v6 bits dbuff >>= fun result => .ok (.ip t result.1, result.2)))
    (hlen : ip.addr.length = bits / 8) (hinit : ip.prefixLength ≤ bits) :
    RoundTrips fl (.ip t ip) ↔ (ip.v6 = true → ip.scopeId = 0) := by
  have hreads : Reads (cborDecodeType (.ip t)) (integerBytes cborArray 2 ++
      (integerBytes cborInteger ip.prefixLength ++ octetsBytes (trimmedAddr ip.addr)))
      (.ip t { ip with scopeId := 0 }) := by
    intro rest
    rw [hdecode, decodePrefix_reads hbits hlen hinit rest, ok_bind]
  rw [roundTrips_iff_of_reads (.ip t ip) ht hbytes hreads]
  obtain ⟨v6, addr, prefixLength, scopeId⟩ := ip
  cases v6 with
  | false => simp [FrValueBox.value]
  | true =>
    simp only [FrValueBox.value, if_true, FrValueBox.ip.injEq, FrIpaddr.mk.injEq, true_and,
      forall_const]
    exact eq_comm

/-- Which tagged values survive being written and read. -/
theorem tagged_roundTrips_iff (fl : FloatOps) (vb : FrValueBox) (h : Tagged vb) :
    RoundTrips fl vb ↔ Kept vb := by
  cases vb with
  | date ns =>
    obtain ⟨-, hsec⟩ := h
    have hbounds : 0 ≤ frUnixTimeToSec ns ∧ frUnixTimeToSec ns < 2 ^ 33 := by
      rw [frUnixTimeToSec]
      omega
    obtain ⟨failure, hfail⟩ := @cborDecodeDate_error (frUnixTimeToSec ns) (by omega) (by omega)
    exact iff_of_false (not_roundTrips_of_error (by simp [FrValueBox.type, cborTypeToTag])
      (.date ns) (by rw [boxBytes]; rfl) hfail) id
  | timeDelta ns =>
    rw [roundTrips_iff_of_reads (.timeDelta ns) (by simp [FrValueBox.type, cborTypeToTag])
      (by rw [boxBytes, timeDeltaBytes]; rfl) (cborDecodeTimeDelta_reads h.1 h.2),
      FrValueBox.value, FrValueBox.value, FrValueBox.timeDelta.injEq,
      timeDeltaOf_eq_iff h.1 h.2, Kept]
    all_goals simp
  | ethernet addr =>
    exact iff_of_true ((roundTrips_iff_of_reads (.ethernet addr)
      (by simp [FrValueBox.type, cborTypeToTag]) (by rw [boxBytes]; rfl)
      (cborDecodeEthernet_reads h)).mpr rfl) trivial
  | ip t ip =>
    cases t with
    | ipv4Addr =>
      obtain ⟨hv6, hlen, hinit, hscope⟩ := h
      refine iff_of_true ((roundTrips_iff_of_reads (.ip .ipv4Addr ip)
        (by simp [FrValueBox.type, cborTypeToTag]) (by rw [boxBytes]; rfl) fun rest => ?_).mpr rfl)
        trivial
      rw [FrValueBox.type, cborDecodeType, cborDecodeIpv4Addr_reads hv6 hlen hinit hscope rest]
      rfl
    | ipv6Addr =>
      obtain ⟨-, hlen, -, hscope⟩ := h
      obtain ⟨failure, hfail⟩ := cborDecodeIpv6Addr_error hlen
      have hbytes : boxBytes (.ip .ipv6Addr ip) = tagBytes (.ip .ipv6Addr) ++ octetsBytes ip.addr := by
        rw [boxBytes, hscope, scopeArrayBytes, scopeBytes, if_pos rfl, if_pos rfl, nil_append,
          append_nil]
      have herror : cborDecodeType (FrValueBox.ip .ipv6Addr ip).type (octetsBytes ip.addr) =
          .error failure := by
        rw [FrValueBox.type, cborDecodeType, hfail, error_bind]
      exact iff_of_false (not_roundTrips_of_error (by simp [FrValueBox.type, cborTypeToTag])
        (.ip .ipv6Addr ip) hbytes herror) id
    | ipv4Prefix =>
      obtain ⟨hv6, hlen, hinit⟩ := h
      rw [prefix_roundTrips_iff (by decide) (by norm_num : 32 < 2 ^ 32) (by rw [boxBytes])
        (fun dbuff => by rw [hv6]; rfl) hlen hinit]
      simp [Kept, hv6]
    | ipv6Prefix =>
      obtain ⟨hv6, hlen, hinit⟩ := h
      rw [prefix_roundTrips_iff (by decide) (by norm_num : 128 < 2 ^ 32) (by rw [boxBytes])
        (fun dbuff => by rw [hv6]; rfl) hlen hinit]
      simp [Kept, hv6]
  | _ => exact absurd h id

/-- An address with a prefix of 24 bits survives. -/
theorem ipv4Prefix_roundTrips :
    RoundTrips .unused (.ip .ipv4Prefix ⟨false, [192, 168, 1, 0], 24, 0⟩) :=
  (tagged_roundTrips_iff .unused (.ip .ipv4Prefix ⟨false, [192, 168, 1, 0], 24, 0⟩)
    ⟨rfl, rfl, by decide⟩).mpr trivial

/-- A time delta of -1 ns is read as zero, and the date of one second after the
epoch is not read at all. -/
theorem timeDelta_loses_fraction :
    (frCborEncodeValueBox ⟨[], 64⟩ (.timeDelta (-1))).map (fun d => d.1.used) =
        .ok [0xd9, 0x03, 0xea, 0xa2, 0x01, 0x00, 0x28, 0x20] ∧
      frCborDecodeValueBox .unused 1 [0xd9, 0x03, 0xea, 0xa2, 0x01, 0x00, 0x28, 0x20] .timeDelta =
        .ok (.timeDelta 0, []) ∧
      (frCborEncodeValueBox ⟨[], 64⟩ (.date 1000000000)).map (fun d => d.1.used) =
        .ok [0xc1, 0x01] ∧
      frCborDecodeValueBox .unused 1 [0xc1, 0x01] .date = .error ⟨-2, none⟩ := by
  have hreads := @cborDecodeTimeDelta_reads (-1) (by norm_num) (by norm_num)
  have hzero : timeDeltaOf ((-1 : ℤ).tdiv nsec) nsec (readFraction ((-1 : ℤ).tmod nsec)) = 0 := by
    decide
  rw [hzero] at hreads
  have hdecode : frCborDecodeValueBox .unused 1 (boxBytes (.timeDelta (-1))) .timeDelta = _ :=
    decode_behindTag (.timeDelta (-1)) (by simp [FrValueBox.type, cborTypeToTag])
      (by rw [boxBytes, timeDeltaBytes]; rfl) hreads 0
  exact ⟨rfl, hdecode, rfl, rfl⟩

end RoundTrip

end FreeRadius.Cbor
