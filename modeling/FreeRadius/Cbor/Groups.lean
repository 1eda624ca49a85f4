import FreeRadius.Cbor.Boxes
import Mathlib.Data.List.TakeWhile

/-!
# Groups of value boxes

The members of a group are decoded without a declared type, which is guessed
from the byte behind the header of the member. A group comes back exactly if
that guess is right for every member in it.
-/

namespace FreeRadius.Cbor

open Library List

variable {fl : FloatOps} {declared : FrType} {rest : List UInt8}
  {dbuff work : List UInt8} {vb : FrValueBox} {type : FrType} {r : FrValueBox × List UInt8}
  {info : ℕ} {β : Type} {payload : List UInt8} {major : ℕ}

theorem bind_eq_ok {γ : Type} {x : Except Failure β} {f : β → Except Failure γ} {r : γ} :
    (x >>= f) = .ok r ↔ ∃ a, x = .ok a ∧ f a = .ok r := by
  cases x with
  | error failure => simp
  | ok a => simp

section Leaves

theorem decodeBytes_eq {data : List UInt8} (hinfo : info < 28)
    (hdecode : ∀ out rest, cborDecodeInteger out info (payload ++ rest) = .ok (data.length, rest)) :
    decodeBytes dbuff (payload ++ (data ++ rest)) info =
      if 2 ^ 20 < data.length then .error ⟨-1, some (.stringTooLong data.length)⟩
      else .ok (data, rest) := by
  rw [decodeBytes, if_neg (by omega), hdecode, returnIfNegative_ok, ok_bind]
  dsimp only
  split_ifs with hlong hzero
  · rfl
  · rw [eq_nil_of_length_eq_zero hzero, nil_append]
  · exact reads_memcpy data rest

variable {value : List UInt8}

theorem decode_string (hlen : value.length < 2 ^ 64) (fuel : ℕ)
    (hres : resolvedType declared (boxBytes (.string value) ++ rest).tail = .string) :
    frCborDecodeValueBox fl (fuel + 1) (boxBytes (.string value) ++ rest) declared =
      if 2 ^ 20 < value.length then .error ⟨-1, some (.stringTooLong value.length)⟩
      else .ok (strdupShallow value, rest) := by
  obtain ⟨info, payload, hbytes, hinfo, hdecode⟩ := integerBytes_spec cborString hlen
  rw [boxBytes, hbytes, append_assoc, cons_append] at hres ⊢
  rw [tail_cons] at hres
  rw [decodeValueBox_scalar hres (by simp) (by decide) (by decide) hinfo,
    show decodeScalarBox fl cborString = decodeStringBox from rfl, decodeStringBox,
    decodeBytes_eq hinfo hdecode]
  simp only [ne_eq, not_true_eq_false, if_false]
  split_ifs
  · rfl
  · rw [ok_bind, ← append_assoc, ← cons_append]
    exact frDbuffSetIn_append _ rest _

theorem strdupShallow_eq_iff : strdupShallow value = .string value ↔ 0 ∉ value := by
  rw [strdupShallow, FrValueBox.string.injEq, takeWhile_eq_self_iff]
  constructor
  · intro h hzero
    simpa using h 0 hzero
  · intro h byte hbyte
    simpa using fun hzero : byte = 0 => h (hzero ▸ hbyte)

theorem decode_octets (hlen : value.length < 2 ^ 64) (fuel : ℕ)
    (hres : resolvedType declared (boxBytes (.octets value) ++ rest).tail = .octets) :
    frCborDecodeValueBox fl (fuel + 1) (boxBytes (.octets value) ++ rest) declared =
      if 2 ^ 20 < value.length then .error ⟨-1, some (.stringTooLong value.length)⟩
      else .ok (.octets value, rest) := by
  obtain ⟨info, payload, hbytes, hinfo, hdecode⟩ := integerBytes_spec cborOctets hlen
  rw [boxBytes, octetsBytes, hbytes, append_assoc, cons_append] at hres ⊢
  rw [tail_cons] at hres
  rw [decodeValueBox_scalar hres (by simp) (by decide) (by decide) hinfo,
    show decodeScalarBox fl cborOctets = decodeOctetsBox from rfl, decodeOctetsBox,
    decodeBytes_eq hinfo hdecode]
  simp only [ne_eq, not_true_eq_false, if_false]
  split_ifs
  · rfl
  · rw [ok_bind, ← append_assoc, ← cons_append]
    exact frDbuffSetIn_append _ rest _

theorem decode_bool (value : Bool) (fuel : ℕ)
    (hres : resolvedType declared (boxBytes (.bool value) ++ rest).tail = .bool) :
    frCborDecodeValueBox fl (fuel + 1) (boxBytes (.bool value) ++ rest) declared =
      .ok (.bool value, rest) := by
  rw [boxBytes, singleton_append] at hres ⊢
  rw [tail_cons] at hres
  have hinfo : 20 + value.toNat < 28 := by cases value <;> decide
  rw [decodeValueBox_scalar hres (by simp) (by decide) (by decide) hinfo,
    show decodeScalarBox fl cborFloat = decodeFloatBox fl from rfl, decodeFloatBox,
    if_pos (by cases value <;> decide)]
  cases value with
  | false => exact frDbuffSetIn_append [header cborFloat 20] rest _
  | true => exact frDbuffSetIn_append [header cborFloat 21] rest _

end Leaves

section Types

theorem frDbuffSetIn_eq_ok {out : β} {r : β × List UInt8}
    (h : frDbuffSetIn dbuff work out = .ok r) : r = (out, work) := by
  unfold frDbuffSetIn at h
  split_ifs at h
  cases h
  rfl

theorem returnIfNegative_eq_ok {result : Except Failure (β × List UInt8)} {r : β × List UInt8}
    (h : returnIfNegative dbuff work result = .ok r) : result = .ok r := by
  cases result with
  | error failure => cases h
  | ok out => exact h

theorem returnUnlessPositive_eq_ok {result : Except Failure (β × List UInt8)} {r : β × List UInt8}
    (h : returnUnlessPositive dbuff work result = .ok r) : result = .ok r := by
  cases result with
  | error failure => cases h
  | ok out =>
    simp only [returnUnlessPositive] at h
    split_ifs at h
    exact h

theorem integerBox_type {value : ℕ} (h : integerBox dbuff work type value = .ok vb) :
    vb.type = type := by
  unfold integerBox at h
  split at h
  · split_ifs at h
    cases h
    rfl
  · split_ifs at h
    cases h
    rfl
  · cases h

theorem negativeBox_type {neg : ℤ} (h : negativeBox type neg = .ok vb) : vb.type = type := by
  unfold negativeBox at h
  split at h
  · split_ifs at h
    cases h
    rfl
  · cases h

theorem simpleBox_type (h : simpleBox dbuff work type info = .ok vb) : vb.type = type := by
  unfold simpleBox at h
  split at h
  all_goals first | cases h | split_ifs at h
  all_goals cases h; rfl

theorem floatBox_type {bits32 : BitVec 32} {bits64 : BitVec 64}
    (h : floatBox type bits32 bits64 = .ok vb) : vb.type = type := by
  unfold floatBox at h
  split at h <;> cases h <;> rfl

theorem decodeFloatBox_type (h : decodeFloatBox fl dbuff work type info = .ok r) :
    r.1.type = type := by
  unfold decodeFloatBox at h
  split_ifs at h
  · obtain ⟨vb, hbox, hset⟩ := bind_eq_ok.mp h
    rw [frDbuffSetIn_eq_ok hset, simpleBox_type hbox]
  all_goals
    obtain ⟨data, -, h⟩ := bind_eq_ok.mp h
    obtain ⟨vb, hbox, hset⟩ := bind_eq_ok.mp h
    rw [frDbuffSetIn_eq_ok hset, floatBox_type hbox]

theorem cborDecodeType_type (h : cborDecodeType type dbuff = .ok r) : r.1.type = type := by
  unfold cborDecodeType at h
  split at h
  · obtain ⟨addr, -, h⟩ := bind_eq_ok.mp h
    cases h
    rfl
  · obtain ⟨neg, -, hset⟩ := bind_eq_ok.mp h
    rw [frDbuffSetIn_eq_ok hset]
    rfl
  · obtain ⟨count, -, h⟩ := bind_eq_ok.mp h
    dsimp only at h
    split_ifs at h
    · obtain ⟨key, -, h⟩ := bind_eq_ok.mp h
      split_ifs at h
      obtain ⟨seconds, -, h⟩ := bind_eq_ok.mp h
      obtain ⟨fraction, -, hset⟩ := bind_eq_ok.mp h
      rw [frDbuffSetIn_eq_ok hset]
      rfl
    · obtain ⟨key, -, h⟩ := bind_eq_ok.mp h
      split_ifs at h
      obtain ⟨seconds, -, hset⟩ := bind_eq_ok.mp h
      rw [frDbuffSetIn_eq_ok hset]
      rfl
  · obtain ⟨addr, -, h⟩ := bind_eq_ok.mp h
    cases h
    rfl
  · cases h

theorem decodeScalarBox_type (h : decodeScalarBox fl major dbuff work type info = .ok r) :
    r.1.type = type := by
  unfold decodeScalarBox at h
  split at h
  · obtain ⟨value, -, h⟩ := bind_eq_ok.mp h
    obtain ⟨vb, hbox, hset⟩ := bind_eq_ok.mp h
    rw [frDbuffSetIn_eq_ok hset, integerBox_type hbox]
  · obtain ⟨value, -, h⟩ := bind_eq_ok.mp h
    dsimp only at h
    split_ifs at h
    obtain ⟨vb, hbox, hset⟩ := bind_eq_ok.mp h
    rw [frDbuffSetIn_eq_ok hset, negativeBox_type hbox]
  · unfold decodeOctetsBox at h
    split_ifs at h with htype
    obtain ⟨data, -, hset⟩ := bind_eq_ok.mp h
    rw [frDbuffSetIn_eq_ok hset]
    exact (not_not.mp htype).symm
  · unfold decodeStringBox at h
    split_ifs at h with htype
    obtain ⟨data, -, hset⟩ := bind_eq_ok.mp h
    rw [frDbuffSetIn_eq_ok hset]
    exact (not_not.mp htype).symm
  · cases h
  · obtain ⟨value, -, h⟩ := bind_eq_ok.mp h
    dsimp only at h
    split_ifs at h
    obtain ⟨result, htype, hset⟩ := bind_eq_ok.mp h
    rw [frDbuffSetIn_eq_ok hset, cborDecodeType_type (returnIfNegative_eq_ok htype)]
  · exact decodeFloatBox_type h

/-- What is read has the declared type, or the one that was guessed. -/
theorem decodeValueBox_type {fuel : ℕ} (h : frCborDecodeValueBox fl fuel dbuff declared = .ok r) :
    r.1.type = resolvedType declared dbuff.tail := by
  cases fuel with
  | zero =>
    rw [frCborDecodeValueBox] at h
    cases h
  | succ fuel =>
    cases dbuff with
    | nil =>
      rw [frCborDecodeValueBox] at h
      cases h
    | cons byte work =>
      rw [decodeValueBox_cons] at h
      rw [tail_cons]
      generalize resolvedType declared work = type at h ⊢
      split_ifs at h with hnull hbad harray hgroup
      · obtain ⟨count, -, h⟩ := bind_eq_ok.mp h
        obtain ⟨members, -, hset⟩ := bind_eq_ok.mp h
        rw [frDbuffSetIn_eq_ok hset]
        exact (not_not.mp hgroup).symm
      · exact decodeScalarBox_type h

end Types

section Members

/-- The boxes of the given kinds, and groups of them. The lengths are those of
`size_t`. -/
inductive GroupTree : FrValueBox → Prop
  | uint64 (vbUint64 : BitVec 64) : GroupTree (.integer .uint64 vbUint64)
  | bool (value : Bool) : GroupTree (.bool value)
  | string {value : List UInt8} (h : value.length < 2 ^ 64) : GroupTree (.string value)
  | octets {value : List UInt8} (h : value.length < 2 ^ 64) : GroupTree (.octets value)
  | group {members : List FrValueBox} (hlen : members.length < 2 ^ 64)
    (h : ∀ child ∈ members, GroupTree child) : GroupTree (.structural .group members)

mutual

/-- What has to hold of a box that `rest` follows: strings are not too long and
have no zero byte, and the members of a group are recovered. -/
def Recovered : FrValueBox → List UInt8 → Prop
  | .string value, _ => value.length ≤ 2 ^ 20 ∧ 0 ∉ value
  | .octets value, _ => value.length ≤ 2 ^ 20
  | .structural .group members, rest => MembersRecovered members rest
  | _, _ => True

/-- The byte behind the header of every member leads to the type of the member.
If the header is all of it, that is a byte of what follows. -/
def MembersRecovered : List FrValueBox → List UInt8 → Prop
  | [], _ => True
  | child :: members, rest =>
    cborGuessType (boxBytes child ++ (membersBytes members ++ rest)).tail false = child.type ∧
      Recovered child (membersBytes members ++ rest) ∧ MembersRecovered members rest

end

theorem header_ne_break (hmajor : major < 8) (hinfo : info < 28) : header major info ≠ 0xff := by
  intro h
  have := infoOf_header hmajor (by omega : info < 32)
  rw [h, show infoOf 0xff = 31 from rfl] at this
  omega

/-- The bytes of a box start with a header that is not a break. -/
theorem GroupTree.exists_header (h : GroupTree vb) :
    ∃ byte tail, boxBytes vb = byte :: tail ∧ byte ≠ 0xff := by
  have hinteger : ∀ major data, major < 8 → data < 2 ^ 64 → ∀ tail, ∃ byte tail',
      integerBytes major data ++ tail = byte :: tail' ∧ byte ≠ 0xff := by
    intro major data hmajor hdata tail
    obtain ⟨info, payload, hbytes, hinfo, -⟩ := integerBytes_spec major hdata
    exact ⟨_, payload ++ tail, by rw [hbytes, cons_append], header_ne_break hmajor hinfo⟩
  cases h with
  | uint64 cell =>
    have := hinteger cborInteger cell.toNat (by decide) cell.isLt []
    rwa [append_nil] at this
  | bool value =>
    refine ⟨header cborFloat (20 + value.toNat), [], by rw [boxBytes], header_ne_break (by decide) ?_⟩
    cases value <;> decide
  | string hlen =>
    rw [boxBytes]
    exact hinteger _ _ (by decide) hlen _
  | octets hlen =>
    rw [boxBytes]
    exact hinteger _ _ (by decide) hlen _
  | group hlen _ =>
    rw [boxBytes]
    exact hinteger _ _ (by decide) hlen _

variable {n fuel : ℕ} {members : List FrValueBox}

theorem arrayCount_eq {out : Option ℕ} (hinfo : info < 28)
    (hdecode : ∀ out rest, cborDecodeInteger out info (payload ++ rest) = .ok (n, rest)) :
    arrayCount dbuff (payload ++ rest) out info = .ok ((n, false), rest) := by
  rw [arrayCount, if_neg (by omega), hdecode]
  rfl

theorem decode_group (hlen : members.length < 2 ^ 64) (fuel : ℕ)
    (hres : resolvedType declared (boxBytes (.structural .group members) ++ rest).tail =
      .structural .group) :
    frCborDecodeValueBox fl (fuel + 1) (boxBytes (.structural .group members) ++ rest) declared =
      (decodeMembers fl fuel (boxBytes (.structural .group members) ++ rest)
        (membersBytes members ++ rest) members.length false >>= fun result =>
          frDbuffSetIn (boxBytes (.structural .group members) ++ rest) result.2
            (.structural .group result.1)) := by
  obtain ⟨info, payload, hbytes, hinfo, hdecode⟩ := integerBytes_spec cborArray hlen
  rw [boxBytes, hbytes, append_assoc, cons_append] at hres ⊢
  rw [tail_cons] at hres
  rw [decodeValueBox_cons, hres, if_neg (by simp), isMalformed_header (by decide) hinfo,
    if_neg Bool.false_ne_true, majorOf_header (by decide) (by omega), if_pos rfl,
    if_neg (not_not.mpr rfl), infoOf_header (by decide) (by omega), arrayCount_eq hinfo hdecode,
    ok_bind]

theorem decodeMembers_cons {child : FrValueBox} (hchild : GroupTree child) :
    decodeMembers fl (fuel + 1) dbuff (boxBytes child ++ rest) (n + 1) false =
      (returnUnlessPositive dbuff (boxBytes child ++ rest)
        (frCborDecodeValueBox fl fuel (boxBytes child ++ rest) .null) >>= fun first =>
          decodeMembers fl fuel dbuff first.2 n false >>= fun result =>
            .ok (first.1 :: result.1, result.2)) := by
  obtain ⟨byte, tail, hbytes, hbreak⟩ := hchild.exists_header
  rw [hbytes, cons_append, decodeMembers]
  simp only [if_neg hbreak]

/-- The box is read back, whatever follows it, if its type is known. -/
def ReadsBack (fl : FloatOps) (vb : FrValueBox) (rest : List UInt8) : Prop :=
  ∃ bound, ∀ fuel, bound ≤ fuel → ∀ declared,
    resolvedType declared (boxBytes vb ++ rest).tail = vb.type →
      frCborDecodeValueBox fl fuel (boxBytes vb ++ rest) declared = .ok (vb, rest)

theorem readsBack_of_succ (h : ∀ fuel declared, resolvedType declared (boxBytes vb ++ rest).tail = vb.type →
      frCborDecodeValueBox fl (fuel + 1) (boxBytes vb ++ rest) declared = .ok (vb, rest)) :
    ReadsBack fl vb rest := by
  refine ⟨1, fun fuel hfuel declared hres => ?_⟩
  obtain ⟨n, rfl⟩ := Nat.exists_eq_add_of_le' hfuel
  exact h n declared hres

theorem decodeMembers_of_recovered (ih : ∀ child ∈ members, GroupTree child ∧
      ∀ rest, Recovered child rest → ReadsBack fl child rest) (h : MembersRecovered members rest) :
    ∃ bound, ∀ fuel, bound ≤ fuel → ∀ dbuff,
      decodeMembers fl fuel dbuff (membersBytes members ++ rest) members.length false =
        .ok (members, rest) := by
  induction members with
  | nil =>
    refine ⟨1, fun fuel hfuel dbuff => ?_⟩
    obtain ⟨n, rfl⟩ := Nat.exists_eq_add_of_le' hfuel
    rw [membersBytes, nil_append, length_nil, decodeMembers]
  | cons child members ihm =>
    rw [MembersRecovered] at h
    obtain ⟨hguess, hchild, hmembers⟩ := h
    obtain ⟨htree, hback⟩ := ih child (by simp)
    obtain ⟨b₁, hread⟩ := hback _ hchild
    obtain ⟨b₂, hloop⟩ := ihm (fun c hc => ih c (by simp [hc])) hmembers
    obtain ⟨byte, tail, hbytes, -⟩ := htree.exists_header
    refine ⟨max b₁ b₂ + 1, fun fuel hfuel dbuff => ?_⟩
    obtain ⟨n, rfl⟩ := Nat.exists_eq_add_of_le' hfuel
    rw [membersBytes, append_assoc, length_cons, ← Nat.add_assoc, decodeMembers_cons htree,
      hread _ (by omega) .null hguess, returnUnlessPositive_ok (by simp [hbytes]), ok_bind,
      hloop _ (by omega)]
    rfl

theorem readsBack_of_recovered (h : GroupTree vb) :
    ∀ rest, Recovered vb rest → ReadsBack fl vb rest := by
  induction h with
  | uint64 cell =>
    intro rest _
    refine readsBack_of_succ fun fuel declared hres => ?_
    have hmax : ¬IntType.uint64.max < cell.toNat := by
      have := cell.isLt
      simp only [IntType.max, IntType.isSigned, IntType.width, Bool.false_eq_true, if_false]
      omega
    have hstore : IntType.uint64.store cell.toNat = .integer .uint64 cell := by
      simp [IntType.store, IntType.width]
    exact (decode_integer fl .uint64 fuel cell.isLt rest hres).trans (by rw [if_neg hmax, hstore])
  | bool value =>
    exact fun rest _ => readsBack_of_succ fun fuel declared hres => decode_bool value fuel hres
  | @string value hlen =>
    intro rest hrec
    rw [Recovered] at hrec
    refine readsBack_of_succ fun fuel declared hres => ?_
    rw [decode_string hlen fuel hres, if_neg (by omega), strdupShallow_eq_iff.mpr hrec.2]
  | @octets value hlen =>
    intro rest hrec
    rw [Recovered] at hrec
    refine readsBack_of_succ fun fuel declared hres => ?_
    rw [decode_octets hlen fuel hres, if_neg (by omega)]
  | @group members hlen hmembers ih =>
    intro rest hrec
    rw [Recovered] at hrec
    obtain ⟨bound, hloop⟩ :=
      decodeMembers_of_recovered (fun child hc => ⟨hmembers child hc, ih child hc⟩) hrec
    refine ⟨bound + 1, fun fuel hfuel declared hres => ?_⟩
    obtain ⟨n, rfl⟩ := Nat.exists_eq_add_of_le' hfuel
    rw [← Nat.add_assoc, decode_group hlen _ hres, hloop _ (by omega), ok_bind]
    exact frDbuffSetIn_append _ rest _

theorem exists_succ_of_decode (h : frCborDecodeValueBox fl fuel dbuff declared = .ok r) :
    ∃ n, fuel = n + 1 := by
  cases fuel with
  | zero =>
    rw [frCborDecodeValueBox] at h
    cases h
  | succ n => exact ⟨n, rfl⟩

theorem membersRecovered_of_decode
    (ih : ∀ child ∈ members, GroupTree child ∧ ∀ fuel declared rest rest',
      frCborDecodeValueBox fl fuel (boxBytes child ++ rest) declared = .ok (child, rest') →
        Recovered child rest ∧ rest' = rest) {rest' : List UInt8}
    (h : decodeMembers fl fuel dbuff (membersBytes members ++ rest) members.length false =
      .ok (members, rest')) : MembersRecovered members rest ∧ rest' = rest := by
  induction members generalizing fuel with
  | nil =>
    cases fuel with
    | zero =>
      rw [decodeMembers] at h
      cases h
    | succ fuel =>
      rw [membersBytes, nil_append, length_nil, decodeMembers] at h
      cases h
      exact ⟨by rw [MembersRecovered]; trivial, rfl⟩
  | cons child members ihm =>
    cases fuel with
    | zero =>
      rw [decodeMembers] at h
      cases h
    | succ fuel =>
      obtain ⟨htree, hchild⟩ := ih child (by simp)
      rw [membersBytes, append_assoc, length_cons, decodeMembers_cons htree] at h
      obtain ⟨⟨first, work⟩, hfirst, h⟩ := bind_eq_ok.mp h
      obtain ⟨⟨others, work'⟩, hothers, h⟩ := bind_eq_ok.mp h
      cases h
      have hdecode := returnUnlessPositive_eq_ok hfirst
      obtain ⟨hrec, rfl⟩ := hchild _ _ _ _ hdecode
      obtain ⟨hmembers, hrest⟩ := ihm (fun c hc => ih c (by simp [hc])) hothers
      exact ⟨by rw [MembersRecovered]; exact ⟨(decodeValueBox_type hdecode).symm, hrec, hmembers⟩,
        hrest⟩

/-- A box that is read back has its types recovered. -/
theorem recovered_of_decode (h : GroupTree vb) :
    ∀ fuel declared rest rest',
      frCborDecodeValueBox fl fuel (boxBytes vb ++ rest) declared = .ok (vb, rest') →
        Recovered vb rest ∧ rest' = rest := by
  induction h with
  | uint64 cell =>
    intro fuel declared rest rest' hdecode
    obtain ⟨n, rfl⟩ := exists_succ_of_decode hdecode
    have hread := decode_integer fl .uint64 n cell.isLt rest (decodeValueBox_type hdecode).symm
    have heq : Except.ok (_, rest') = _ := hdecode.symm.trans hread
    split_ifs at heq
    rw [Except.ok.injEq, Prod.mk.injEq] at heq
    exact ⟨by simp [Recovered], heq.2⟩
  | bool value =>
    intro fuel declared rest rest' hdecode
    obtain ⟨n, rfl⟩ := exists_succ_of_decode hdecode
    rw [decode_bool value n (decodeValueBox_type hdecode).symm] at hdecode
    cases hdecode
    exact ⟨by simp [Recovered], rfl⟩
  | @string value hlen =>
    intro fuel declared rest rest' hdecode
    obtain ⟨n, rfl⟩ := exists_succ_of_decode hdecode
    rw [decode_string hlen n (decodeValueBox_type hdecode).symm] at hdecode
    split_ifs at hdecode with hlong
    rw [Except.ok.injEq, Prod.mk.injEq, strdupShallow_eq_iff] at hdecode
    exact ⟨by rw [Recovered]; exact ⟨by omega, hdecode.1⟩, hdecode.2.symm⟩
  | @octets value hlen =>
    intro fuel declared rest rest' hdecode
    obtain ⟨n, rfl⟩ := exists_succ_of_decode hdecode
    rw [decode_octets hlen n (decodeValueBox_type hdecode).symm] at hdecode
    split_ifs at hdecode with hlong
    cases hdecode
    exact ⟨by rw [Recovered]; omega, rfl⟩
  | @group members hlen hmembers ih =>
    intro fuel declared rest rest' hdecode
    obtain ⟨n, rfl⟩ := exists_succ_of_decode hdecode
    rw [decode_group hlen n (decodeValueBox_type hdecode).symm] at hdecode
    obtain ⟨⟨members', work⟩, hloop, hset⟩ := bind_eq_ok.mp hdecode
    cases frDbuffSetIn_eq_ok hset
    rw [Recovered]
    exact membersRecovered_of_decode (fun child hc => ⟨hmembers child hc, ih child hc⟩) hloop

theorem GroupTree.encodable (h : GroupTree vb) : Encodable vb := by
  induction h with
  | uint64 cell => exact .integer .uint64 cell
  | bool value => exact .bool value
  | string _ => exact .string _
  | octets _ => exact .octets _
  | group _ _ ih => exact .group ih

/-- A group comes back exactly if the types of all its members are recovered. -/
theorem group_roundTrips_iff (fl : FloatOps) (members : List FrValueBox)
    (h : GroupTree (.structural .group members)) :
    RoundTrips fl (.structural .group members) ↔ MembersRecovered members [] := by
  have hrec : Recovered (.structural .group members) [] ↔ MembersRecovered members [] := by
    rw [Recovered]
  rw [← hrec]
  constructor
  · intro hround
    obtain ⟨fuel, out, hdecode, hvalue⟩ := hround.exists_decode h.encodable
    have htype := decodeValueBox_type hdecode
    rw [resolvedType_declared (by simp [FrValueBox.type])] at htype
    obtain rfl : out = .structural .group members := by
      cases out <;> simp_all [FrValueBox.type, FrValueBox.value]
    rw [← append_nil (boxBytes _)] at hdecode
    exact (recovered_of_decode h _ _ _ _ hdecode).1
  · intro hmembers
    obtain ⟨bound, hread⟩ := readsBack_of_recovered h [] hmembers
    refine roundTrips_of_reads h.encodable bound (fun fuel hfuel => ?_) rfl
    have := hread fuel hfuel (.structural .group) (resolvedType_declared (by simp) _)
    rwa [append_nil] at this

/-- A group of the number 300, the string "ab" and a group of 128 numbers comes back: behind the
header of that group is the number of its members, which looks like another header of a group. -/
theorem group_roundTrips_300 :
    RoundTrips .unused (.structural .group [.integer .uint64 300, .string [97, 98],
      .structural .group (replicate 128 (.integer .uint64 300))]) := by
  have hmany : ∀ n rest, MembersRecovered (replicate n (.integer .uint64 300)) rest := by
    intro n rest
    induction n with
    | zero => simp [MembersRecovered]
    | succ n ih =>
      rw [replicate_succ, MembersRecovered]
      exact ⟨rfl, by simp [Recovered], ih⟩
  have hinner : GroupTree (.structural .group (replicate 128 (.integer .uint64 300))) :=
    .group (by simp) fun child hc => by
      rw [eq_of_mem_replicate hc]
      exact .uint64 300
  refine (group_roundTrips_iff .unused _ (.group (by simp) fun child hc => ?_)).mpr ?_
  · simp only [mem_cons, not_mem_nil, or_false] at hc
    rcases hc with rfl | rfl | rfl
    · exact .uint64 300
    · exact .string (by simp)
    · exact hinner
  · simp only [MembersRecovered, Recovered, hmany, and_true]
    refine ⟨rfl, trivial, rfl, ⟨by simp, by simp⟩, ?_⟩
    rw [boxBytes, length_replicate]
    rfl

/-- The group of the number 5 is written as 0x8105. Behind the header 0x05 of
its member there is nothing that a type could be guessed from. -/
theorem group_five_not_read :
    (frCborEncodeValueBox ⟨[], 16⟩ (.structural .group [.integer .uint64 5])).map
        (fun d => d.1.used) = .ok [0x81, 0x05] ∧
      (frCborDecodeValueBox .unused 9 [0x81, 0x05] (.structural .group)).toOption = none := by
  refine ⟨rfl, rfl⟩

end Members

end FreeRadius.Cbor
