import FreeRadius.Struct.Bits

/-!
# Structs decode to what was encoded

For structs of bit fields, whose runs are whole bytes, integers, and octets at the end. The encoder
writes the bits of the members one after the other, and the decoder takes them out again; neither
depends on where the bytes end.
-/

namespace FreeRadius.Struct

open Library Calc List

section Layout

variable {m : Member} {v : Value} {leaf : Value → List UInt8} {cb : Callbacks}

/-- A bit field: the dictionary gives it an unsigned type. -/
def Member.IsBits (m : Member) : Prop :=
  m.bitField = true ∧ 1 ≤ m.length ∧ m.length ≤ 56 ∧
    (m.type = .bool ∨ ∃ t : IntType, m.type = .int t ∧ t.signed = false)

def Member.IsInteger (m : Member) : Prop :=
  m.bitField = false ∧ m.array = false ∧ ∃ t : IntType, m.type = .int t ∧ m.length = t.size

def Member.IsOctets (m : Member) : Prop :=
  m.bitField = false ∧ m.array = false ∧ m.type = .octets ∧ m.length = 0

/-- The members of a struct, from one that begins `offset` bits into a byte on. -/
inductive Layout : ℕ → List Member → Prop
  | nil : Layout 0 []
  | bits {offset : ℕ} {m : Member} {members : List Member} (hm : m.IsBits)
      (hrest : Layout ((offset + m.length) % 8) members) : Layout offset (m :: members)
  | integer {m : Member} {members : List Member} (hm : m.IsInteger) (hrest : Layout 0 members) :
      Layout 0 (m :: members)
  | octets {m : Member} (hm : m.IsOctets) : Layout 0 [m]

/-- A value that the member can hold: octets without a length before them are not empty, and those
with one are not too long for it. -/
def InRange (m : Member) : Value → Prop
  | .bool _ => m.type = .bool
  | .int b => m.type = .int b.type ∧ (m.bitField = true → b.word.toNat < 2 ^ m.length)
  | .octets bytes =>
    m.type = .octets ∧
      match m.lengthField with
      | none => bytes ≠ []
      | some f => bytes.length < 256 ^ f.size
  | .leaf _ _ => False

def memberPairs : ℕ → List Value → List Pair
  | _, [] => []
  | num, v :: values => .member num v :: memberPairs (num + 1) values

def memberBits (leaf : Value → List UInt8) (m : Member) (v : Value) : List Bool :=
  if m.bitField then bitsOf m.length ((bitFieldData m.type v).getD 0).toNat
  else byteBits (frValueBoxToNetwork leaf m v)

def structBits (leaf : Value → List UInt8) : List Member → List Value → List Bool
  | m :: members, v :: values => memberBits leaf m v ++ structBits leaf members values
  | _, _ => []

theorem structBits_cons (leaf : Value → List UInt8) (m : Member) (members : List Member) (v : Value)
    (values : List Value) :
    structBits leaf (m :: members) (v :: values) =
      memberBits leaf m v ++ structBits leaf members values :=
  rfl

end Layout

variable {f : LengthField} {members : List Member} {values : List Value}

section Members

variable {m : Member} {v : Value} {leaf : Value → List UInt8} {cb : Callbacks}

theorem ofWord_word (b : Box) : Box.ofWord b.type b.word = b := by
  have hword : lowBytes b.type.size b.word = b.word := by
    refine BitVec.eq_of_toNat_eq ?_
    rw [toNat_lowBytes, Nat.mod_eq_of_lt b.clean]
  cases b
  simpa [Box.ofWord] using hword

/-- A bit field holds its value, and the number that is put into it makes the value again. -/
theorem bitFieldData_inRange (hm : m.IsBits) (hv : InRange m v) :
    ∃ data : BitVec 64, bitFieldData m.type v = some data ∧ data.toNat < 2 ^ m.length ∧
      bitFieldValue m.type data.toNat = some v := by
  obtain ⟨hbits, hpos, -, htype⟩ := hm
  have htwo : 2 ≤ 2 ^ m.length := Nat.le_self_pow (by omega) 2
  cases v with
  | bool b =>
    have hbool : m.type = .bool := hv
    refine ⟨if b then 1 else 0, by rw [hbool]; rfl, ?_, ?_⟩
    · cases b
      · exact Nat.two_pow_pos _
      · exact htwo
    · rw [hbool]
      cases b <;> rfl
  | int b =>
    obtain ⟨hint, hlt⟩ := hv
    have hsigned : b.type.signed = false := by
      obtain hbool | ⟨t, ht, hsigned⟩ := htype
      · rw [hint] at hbool
        cases hbool
      · rw [hint] at ht
        cases ht
        exact hsigned
    refine ⟨b.word, ?_, hlt hbits, ?_⟩
    · rw [hint]
      simp [bitFieldData, hsigned]
    · rw [hint]
      simp [bitFieldValue, hsigned, ofWord_word]
  | octets bytes =>
    obtain ⟨hoctets, -⟩ := hv
    obtain hbool | ⟨t, ht, -⟩ := htype <;> simp_all
  | leaf code bytes => exact hv.elim

theorem size_pos (t : IntType) : 0 < t.size := by cases t <;> decide

theorem word_lt (b : Box) : b.word.toNat < 256 ^ b.type.size := by
  have hpow : 256 ^ b.type.size = 2 ^ (8 * b.type.size) := by rw [show 256 = 2 ^ 8 by rfl, pow_mul]
  rw [hpow]
  exact b.clean

theorem length_toNetwork (leaf : Value → List UInt8) (hm : m.IsInteger) (hv : InRange m v) :
    (frValueBoxToNetwork leaf m v).length = m.length ∧ 0 < m.length := by
  obtain ⟨-, -, t, ht, hlength⟩ := hm
  cases v with
  | int b =>
    obtain ⟨hint, -⟩ := hv
    rw [hint] at ht
    cases ht
    rw [hlength, frValueBoxToNetwork, length_nboBytes]
    exact ⟨rfl, size_pos _⟩
  | bool b => simp_all [InRange]
  | octets bytes => simp_all [InRange]
  | leaf code bytes => exact hv.elim

theorem fromNetwork_integer (hm : m.IsInteger) (hv : InRange m v) :
    frValueBoxFromNetwork cb m (frValueBoxToNetwork leaf m v) = some v := by
  obtain ⟨-, -, t, ht, hlength⟩ := hm
  cases v with
  | int b =>
    obtain ⟨hint, -⟩ := hv
    simp only [frValueBoxFromNetwork, hint, frValueBoxToNetwork, length_nboBytes, if_true]
    rw [nboValue_nboBytes (word_lt b), BitVec.ofNat_toNat, BitVec.setWidth_eq, ofWord_word]
  | bool b => simp_all [InRange]
  | octets bytes => simp_all [InRange]
  | leaf code bytes => exact hv.elim

theorem toNetwork_prefixed {bytes : List UInt8} (hlength : m.length = 0)
    (hf : m.lengthField = some f) (hlt : bytes.length < 256 ^ f.size) :
    frValueBoxToNetwork leaf m (.octets bytes) = nboBytes f.size bytes.length ++ bytes := by
  cases f with
  | uint8 =>
    have hle : bytes.length ≤ 255 := Nat.le_of_lt_succ hlt
    simp only [frValueBoxToNetwork, hlength, hf, ne_eq, not_true_eq_false, if_false]
    rw [Nat.min_eq_left hle, take_of_length_le hle]
    rfl
  | uint16 =>
    have hle : bytes.length ≤ 65535 := Nat.le_of_lt_succ hlt
    simp only [frValueBoxToNetwork, hlength, hf, ne_eq, not_true_eq_false, if_false]
    rw [if_neg (by omega), take_length]
    rfl

theorem toNetwork_octets_ne_nil (leaf : Value → List UInt8) (hm : m.IsOctets) (hv : InRange m v) :
    frValueBoxToNetwork leaf m v ≠ [] := by
  obtain ⟨-, -, htype, hlength⟩ := hm
  cases v with
  | octets bytes =>
    obtain ⟨-, hbytes⟩ := hv
    cases hf : m.lengthField with
    | none => simpa [frValueBoxToNetwork, hlength, hf] using hbytes
    | some f =>
      rw [hf] at hbytes
      have hpos : 0 < f.size := by cases f <;> decide
      refine ne_nil_of_length_pos ?_
      rw [toNetwork_prefixed hlength hf hbytes, length_append, length_nboBytes]
      omega
  | bool b => simp_all [InRange]
  | int b => simp_all [InRange]
  | leaf code bytes => exact hv.elim

theorem fromNetwork_octets (hm : m.IsOctets) (hv : InRange m v) :
    frValueBoxFromNetwork cb m (frValueBoxToNetwork leaf m v) = some v := by
  obtain ⟨-, -, htype, hlength⟩ := hm
  cases v with
  | octets bytes =>
    obtain ⟨-, hbytes⟩ := hv
    rcases hf : m.lengthField with _ | f
    · simp [frValueBoxFromNetwork, frValueBoxToNetwork, htype, hlength, hf]
    rw [hf] at hbytes
    have htake : (nboBytes f.size bytes.length ++ bytes).take f.size = nboBytes f.size bytes.length :=
      take_left' (length_nboBytes _ _)
    have hdrop : (nboBytes f.size bytes.length ++ bytes).drop f.size = bytes :=
      drop_left' (length_nboBytes _ _)
    rw [toNetwork_prefixed hlength hf hbytes]
    simp only [frValueBoxFromNetwork, htype, hlength, hf, ne_eq, not_true_eq_false, if_false,
      length_append, length_nboBytes, htake, hdrop, nboValue_nboBytes hbytes]
    rw [if_neg (by omega), if_neg (by omega), if_neg (by omega), take_length]
  | bool b => simp_all [InRange]
  | int b => simp_all [InRange]
  | leaf code bytes => exact hv.elim

theorem length_memberBits (leaf : Value → List UInt8) (v : Value) (hm : m.IsBits) :
    (memberBits leaf m v).length = m.length := by
  rw [memberBits, if_pos hm.1, length_bitsOf]

theorem memberBits_bytes (leaf : Value → List UInt8) (v : Value) (hm : m.bitField = false) :
    memberBits leaf m v = byteBits (frValueBoxToNetwork leaf m v) := by
  rw [memberBits, hm]
  rfl

/-- Values for the members of a `Layout`, with all that is asked of a value in whole bytes. -/
inductive Filled (cb : Callbacks) (leaf : Value → List UInt8) :
    ℕ → List Member → List Value → Prop
  | nil : Filled cb leaf 0 [] []
  | bits {offset : ℕ} {m : Member} {v : Value} {members : List Member} {values : List Value}
      (hm : m.IsBits) (hv : InRange m v)
      (hrest : Filled cb leaf ((offset + m.length) % 8) members values) :
      Filled cb leaf offset (m :: members) (v :: values)
  | bytes {m : Member} {v : Value} {members : List Member} {values : List Value}
      (hm : m.bitField = false) (harray : m.array = false) (htlv : m.type ≠ .tlv)
      (hvalue : frValueBoxFromNetwork cb m (frValueBoxToNetwork leaf m v) = some v)
      (hne : frValueBoxToNetwork leaf m v ≠ [])
      (hlength : m.length = (frValueBoxToNetwork leaf m v).length ∨ m.length = 0 ∧ members = [])
      (hrest : Filled cb leaf 0 members values) : Filled cb leaf 0 (m :: members) (v :: values)

theorem Layout.filled {offset : ℕ} (hlayout : Layout offset members)
    (hvalues : List.Forall₂ InRange members values) : Filled cb leaf offset members values := by
  induction hlayout generalizing values with
  | nil =>
    cases hvalues
    exact .nil
  | bits hm _ ih =>
    cases hvalues with
    | cons hv hvalues => exact .bits hm hv (ih hvalues)
  | @integer m _ hm _ ih =>
    cases hvalues with
    | cons hv hvalues =>
      obtain ⟨hlen, hpos⟩ := length_toNetwork leaf hm hv
      have htlv : m.type ≠ .tlv := by
        obtain ⟨-, -, t, ht, -⟩ := hm
        simp [ht]
      exact .bytes hm.1 hm.2.1 htlv (fromNetwork_integer hm hv) (ne_nil_of_length_pos (by omega))
        (.inl hlen.symm) (ih hvalues)
  | octets hm =>
    cases hvalues with
    | cons hv hvalues =>
      cases hvalues
      exact .bytes hm.1 hm.2.1 (by simp [hm.2.2.1]) (fromNetwork_octets hm hv)
        (toNetwork_octets_ne_nil leaf hm hv) (.inr ⟨hm.2.2.2, rfl⟩) .nil

end Members

section Encode

variable {enc : Encoders} {cb : Callbacks} {room num offset : ℕ} {m : Member} {v : Value}
  {members : List Member} {values : List Value}

/-- A value in whole bytes: with the last pair the loop is left. -/
theorem encodeMembers_value (members : List Member) (pairs : List Pair) {p : UInt8}
    {out : List UInt8} (henc : enc.encodeValue = none) (hm : m.bitField = false)
    (harray : m.array = false) (hne : frValueBoxToNetwork enc.leaf m v ≠ [])
    (hroom : out.length + (frValueBoxToNetwork enc.leaf m v).length ≤ room) :
    encodeMembers enc room (m :: members) num (.member num v :: pairs) 0 p out =
      if pairs.isEmpty then .ok (out ++ frValueBoxToNetwork enc.leaf m v)
      else encodeMembers enc room members (num + 1) pairs 0 p
        (out ++ frValueBoxToNetwork enc.leaf m v) := by
  have hput : putValue enc.leaf room out m v = .ok (out ++ frValueBoxToNetwork enc.leaf m v) := by
    rw [putValue, dbuffIn, if_pos hroom]
    exact if_neg hne
  cases pairs with
  | nil => simp [encodeMembers, hm, henc, hput, harray, checkLeftover]
  | cons pair pairs => simp [encodeMembers, hm, henc, hput, harray]

/-- The encoder writes the bits that it has in its buffer, and those of the members. -/
theorem encodeMembers_eq (henc : enc.encodeValue = none)
    (hfilled : Filled cb enc.leaf offset members values) :
    ∀ (num : ℕ) (p : UInt8) (out : List UInt8), offset ≤ 7 →
      8 * out.length + offset + (structBits enc.leaf members values).length ≤ 8 * room →
      ∃ out', encodeMembers enc room members num (memberPairs num values) offset p out = .ok out' ∧
        byteBits out' =
          byteBits out ++ (bitsOf 8 p.toNat).take offset ++ structBits enc.leaf members values := by
  induction hfilled with
  | nil => exact fun num p out _ _ => ⟨out, rfl, by simp [structBits]⟩
  | bits hm hv _ ih =>
    intro num p out hoffset hroom
    obtain ⟨data, hdata, -, -⟩ := bitFieldData_inRange hm hv
    rw [structBits_cons, length_append, length_memberBits _ _ hm] at hroom
    obtain ⟨out', p', hput, hlen, hwritten⟩ :=
      putBitsDbuff_spec room out p data hoffset hm.2.1 hm.2.2.1 (by omega)
    obtain ⟨out'', hrun, hall⟩ := ih (num + 1) p' out' (by omega) (by omega)
    refine ⟨out'', ?_, ?_⟩
    · simp [memberPairs, encodeMembers, hm.1, hdata, hput, hrun]
    · rw [hall, hwritten, structBits_cons, memberBits, if_pos hm.1, hdata, Option.getD_some]
      simp
  | @bytes m v members values hm harray _ _ hne _ _ ih =>
    intro num p out hoffset hroom
    have hbits := memberBits_bytes enc.leaf v hm
    rw [structBits_cons, length_append, hbits, length_byteBits] at hroom
    rw [memberPairs, encodeMembers_value members _ henc hm harray hne (by omega)]
    cases values with
    | nil => exact ⟨_, rfl, by simp [structBits, hbits, byteBits_append]⟩
    | cons v' values =>
      obtain ⟨out', hrun, hall⟩ := ih (num + 1) p (out ++ frValueBoxToNetwork enc.leaf m v)
        (by omega) (by rw [length_append]; omega)
      refine ⟨out', hrun, ?_⟩
      rw [hall, structBits_cons enc.leaf m, hbits, byteBits_append, take_zero]
      simp

end Encode

section Decode

variable {bytes rest : List UInt8} {more : List Bool}

theorem split_bytes {first : List UInt8} (h : byteBits bytes = byteBits first ++ more) :
    bytes = first ++ bytes.drop first.length ∧ byteBits (bytes.drop first.length) = more := by
  have htake : bytes.take first.length = first := by
    refine byteBits_inj ?_
    rw [byteBits_take_bytes, h, take_left' (length_byteBits first)]
  refine ⟨?_, ?_⟩
  · conv_lhs => rw [← take_append_drop first.length bytes, htake]
  · rw [byteBits_drop_bytes, h, drop_left' (length_byteBits first)]

variable {cb : Callbacks} {num offset : ℕ} {m : Member} {v : Value} {leaf : Value → List UInt8}

/-- The member from its bits, the bits before it in the first byte aside. -/
theorem decodeMembers_bits (members : List Member) (pairs : List Pair) (key : Option (ℕ × Value))
    {lead : List Bool} (hm : m.IsBits) (hv : InRange m v) (hoffset : lead.length ≤ 7)
    (hrest : byteBits rest = lead ++ (memberBits leaf m v ++ more)) :
    decodeMembers cb (m :: members) num rest lead.length pairs key =
      decodeMembers cb members (num + 1) (rest.drop ((lead.length + m.length) / 8))
        ((lead.length + m.length) % 8) (pairs ++ [.member num v]) key := by
  obtain ⟨data, hdata, hlt, hvalue⟩ := bitFieldData_inRange hm hv
  obtain ⟨hbits, hpos, hle, -⟩ := hm
  rw [memberBits, if_pos hbits, hdata, Option.getD_some] at hrest
  have hlen := congrArg List.length hrest
  rw [length_byteBits, length_append, length_append, length_bitsOf] at hlen
  have hbytes : frBytesFromBits (lead.length + m.length) ≤ rest.length := by
    rw [frBytesFromBits, Nat.shiftRight_eq_div_pow]
    omega
  have hnumber : bitFieldNumber lead.length m.length rest = data.toNat := by
    rw [bitFieldNumber_eq hoffset hpos hle hbytes, hrest, drop_left, take_left' (length_bitsOf _ _),
      bitsValue_bitsOf, Nat.mod_eq_of_lt hlt]
  have hne : rest.isEmpty = false := by
    rw [isEmpty_eq_false_iff]
    exact ne_nil_of_length_pos (by omega)
  rw [decodeMembers]
  simp only [hne, Bool.false_eq_true, if_false, hbits, if_true, hnumber, hvalue]
  rw [if_neg (by omega), Nat.shiftRight_eq_div_pow]

theorem decodeMembers_value (members : List Member) (pairs : List Pair) (key : Option (ℕ × Value))
    {more : List UInt8} (hcb : cb.decodeValue = none) (hm : m.bitField = false)
    (harray : m.array = false) (htlv : m.type ≠ .tlv)
    (hvalue : frValueBoxFromNetwork cb m bytes = some v) (hne : bytes ≠ [])
    (hlength : m.length = bytes.length ∨ m.length = 0 ∧ more = []) (hrest : rest = bytes ++ more) :
    decodeMembers cb (m :: members) num rest offset pairs key =
      decodeMembers cb members (num + 1) more 0 (pairs ++ [.member num v])
        (if m.key then some (num, v) else key) := by
  have hpos : 0 < bytes.length := length_pos_of_ne_nil hne
  have hempty : rest.isEmpty = false := by
    rw [hrest, isEmpty_eq_false_iff]
    exact append_ne_nil_of_left_ne_nil hne _
  have hchild : (if (decide (m.length = 0) || m.array) = true then rest.length else m.length) =
      bytes.length := by
    obtain hfixed | ⟨hzero, hmore⟩ := hlength
    · rw [if_neg (by simp [harray]; omega), hfixed]
    · rw [if_pos (by simp [hzero]), hrest, hmore, append_nil]
  have hle : ¬ m.length > rest.length := by
    rw [hrest, length_append]
    omega
  rw [decodeMembers]
  simp only [hempty, Bool.false_eq_true, if_false, hm, htlv, hle, hcb, hchild]
  rw [hrest, take_left, drop_left]
  simp only [hvalue]

/-- The decoder takes the members out of their bits, and uses all of them. -/
theorem decodeMembers_eq (hcb : cb.decodeValue = none)
    (hfilled : Filled cb leaf offset members values) :
    ∀ (num : ℕ) (rest : List UInt8) (lead : List Bool) (pairs : List Pair)
      (key : Option (ℕ × Value)), offset ≤ 7 → lead.length = offset →
      byteBits rest = lead ++ structBits leaf members values →
      ∃ key', decodeMembers cb members num rest offset pairs key =
        .ended [] (pairs ++ memberPairs num values) key' := by
  induction hfilled with
  | nil =>
    intro num rest lead pairs key _ hlead hrest
    obtain rfl := length_eq_zero_iff.mp hlead
    obtain rfl : rest = [] := byteBits_inj hrest
    exact ⟨key, by rw [memberPairs, append_nil, decodeMembers]⟩
  | @bits offset m v members values hm hv _ ih =>
    intro num rest lead pairs key hoffset hlead hrest
    subst hlead
    rw [structBits_cons] at hrest
    have hlen := length_memberBits leaf v hm
    -- what is left of the last byte leads the bits of the next member
    have hnext : byteBits (rest.drop ((lead.length + m.length) / 8)) =
        (lead ++ memberBits leaf m v).drop (8 * ((lead.length + m.length) / 8)) ++
          structBits leaf members values := by
      rw [byteBits_drop_bytes, hrest, ← append_assoc, drop_append_of_le_length]
      rw [length_append, hlen]
      omega
    obtain ⟨key', hrun⟩ := ih (num + 1) _ _ (pairs ++ [.member num v]) key (by omega)
      (by rw [length_drop, length_append, hlen]; omega) hnext
    refine ⟨key', ?_⟩
    rw [decodeMembers_bits members pairs key hm hv hoffset hrest, hrun, memberPairs, append_assoc,
      singleton_append]
  | @bytes m v members values hm harray htlv hvalue hne hlength _ ih =>
    intro num rest lead pairs key _ hlead hrest
    obtain rfl := length_eq_zero_iff.mp hlead
    rw [nil_append, structBits_cons, memberBits_bytes leaf v hm] at hrest
    obtain ⟨hfirst, hmore⟩ := split_bytes hrest
    obtain ⟨key', hrun⟩ := ih (num + 1) _ [] (pairs ++ [.member num v])
      (if m.key then some (num, v) else key) (by omega) rfl hmore
    refine ⟨key', ?_⟩
    rw [decodeMembers_value members pairs key hcb hm harray htlv hvalue hne
      (hlength.imp_right fun h => ⟨h.1, byteBits_inj (by rw [hmore, h.2]; rfl)⟩) hfirst, hrun,
      memberPairs, append_assoc, singleton_append]

end Decode

section RoundTrip

variable {children : List Pair} {values : List Value} {parent : StructDef}

theorem map_num_memberPairs (num : ℕ) (values : List Value) :
    (memberPairs num values).map Pair.num = List.range' num values.length := by
  induction values generalizing num with
  | nil => rfl
  | cons v values ih =>
    rw [memberPairs, map_cons, ih, length_cons, range'_succ]
    rfl

theorem pairwise_memberPairs (num : ℕ) (values : List Value) :
    (memberPairs num values).Pairwise fun a b => pairSortIncreasing a b = true := by
  have h : ((memberPairs num values).map Pair.num).Pairwise (· ≤ ·) := by
    rw [map_num_memberPairs]
    exact pairwise_le_range' 1
  exact (pairwise_map.mp h).imp fun hle => decide_eq_true hle

/-- The pairs are sorted before they are encoded: their order in the list does not matter. -/
theorem mergeSort_memberPairs {num : ℕ} (h : children.Perm (memberPairs num values)) :
    children.mergeSort pairSortIncreasing = memberPairs num values := by
  have hsorted : (children.mergeSort pairSortIncreasing).Pairwise
      fun a b => pairSortIncreasing a b = true := by
    refine pairwise_mergeSort (fun a b c hab hbc => ?_) (fun a b => ?_) children
    · exact decide_eq_true ((of_decide_eq_true hab).trans (of_decide_eq_true hbc))
    · simpa [pairSortIncreasing] using Nat.le_total a.num b.num
  have hperm := (mergeSort_perm children pairSortIncreasing).trans h
  have hnodup : ((memberPairs num values).map Pair.num).Nodup := by
    rw [map_num_memberPairs]
    exact nodup_range' 1
  refine hperm.eq_of_pairwise (fun a b ha hb hab hba => ?_) hsorted (pairwise_memberPairs num values)
  exact inj_on_of_nodup_map hnodup (hperm.mem_iff.mp ha) hb
    (Nat.le_antisymm (of_decide_eq_true hab) (of_decide_eq_true hba))

def structSize (leaf : Value → List UInt8) (members : List Member) (values : List Value) : ℕ :=
  (structBits leaf members values).length / 8

/-- A struct has something to decode: a member, or a length before the members that can hold their
size. -/
def SizeInRange (parent : StructDef) (size : ℕ) : Prop :=
  match parent.lengthField with
  | none => parent.members ≠ []
  | some f => size + parent.lengthOffset < 256 ^ f.size ∧ f.size + size ≤ 256 ^ f.size

def prefixSize (parent : StructDef) : ℕ := (parent.lengthField.map LengthField.size).getD 0

variable {enc : Encoders} {cb : Callbacks} {room : ℕ} {members : List Member} {values : List Value}
  {leaf : Value → List UInt8} {offset : ℕ}

theorem Filled.dvd_length (hfilled : Filled cb leaf offset members values) :
    (offset + (structBits leaf members values).length) % 8 = 0 := by
  induction hfilled with
  | nil => rfl
  | bits hm _ _ ih =>
    rw [structBits_cons, length_append, length_memberBits _ _ hm]
    omega
  | bytes hm _ _ _ _ _ _ ih =>
    rw [structBits_cons, length_append, memberBits_bytes _ _ hm, length_byteBits]
    omega

theorem Filled.structBits_ne_nil (hfilled : Filled cb leaf offset members values)
    (hne : members ≠ []) : structBits leaf members values ≠ [] := by
  cases hfilled with
  | nil => exact absurd rfl hne
  | bits hm hv _ =>
    refine append_ne_nil_of_left_ne_nil (ne_nil_of_length_pos ?_) _
    rw [length_memberBits _ _ hm]
    exact hm.2.1
  | bytes hm _ _ _ hbytes _ _ =>
    have hpos := length_pos_of_ne_nil hbytes
    refine append_ne_nil_of_left_ne_nil (ne_nil_of_length_pos ?_) _
    rw [memberBits_bytes _ _ hm, length_byteBits]
    omega

theorem encodeMembers_append (room : ℕ) (henc : enc.encodeValue = none)
    (hfilled : Filled cb enc.leaf 0 members values) (out : List UInt8)
    (hroom : out.length + structSize enc.leaf members values ≤ room) :
    ∃ body, encodeMembers enc room members 1 (memberPairs 1 values) 0 0 out = .ok (out ++ body) ∧
      byteBits body = structBits enc.leaf members values ∧
      body.length = structSize enc.leaf members values := by
  have hdvd := hfilled.dvd_length
  rw [structSize] at hroom
  obtain ⟨out', hrun, hbits⟩ := @encodeMembers_eq _ _ room _ _ _ henc hfilled 1 0 out (Nat.zero_le 7)
    (by omega)
  rw [take_zero, append_nil] at hbits
  obtain ⟨hout, hbody⟩ := split_bytes hbits
  refine ⟨out'.drop out.length, by rw [hrun, ← hout], hbody, ?_⟩
  rw [structSize, ← hbody, length_byteBits]
  omega

theorem decodeBody_eq (hcb : cb.decodeValue = none)
    (hfilled : Filled cb leaf 0 parent.members values) (header : List UInt8) {body : List UInt8}
    (hbody : byteBits body = structBits leaf parent.members values) :
    decodeBody cb parent (header ++ body) header.length body.length =
      .decoded (header ++ body).length (.struct (memberPairs 1 values)) := by
  obtain ⟨key, hrun⟩ := decodeMembers_eq hcb hfilled 1 body [] [] none (Nat.zero_le 7) rfl hbody
  have htake : ((header ++ body).drop header.length).take body.length = body := by
    rw [drop_left, take_length]
  rw [decodeBody]
  simp only [htake, hrun]
  cases key with
  | none => simp
  | some key => simp

/-- A struct is encoded, whatever the order of its children, and the decoder uses all of the bytes for a
struct with the same values. -/
theorem frStructFromNetwork_frStructToNetwork (henc : enc.encodeValue = none)
    (hcb : cb.decodeValue = none) {parent : StructDef} (hlayout : Layout 0 parent.members)
    (hvalues : List.Forall₂ InRange parent.members values)
    (hsize : SizeInRange parent (structSize enc.leaf parent.members values)) {children : List Pair}
    (hchildren : children.Perm (memberPairs 1 values))
    (hroom : prefixSize parent + structSize enc.leaf parent.members values ≤ room) :
    ∃ bytes, frStructToNetwork enc room parent children = .ok bytes ∧
      frStructFromNetwork cb parent bytes =
        .decoded bytes.length (.struct (memberPairs 1 values)) := by
  have hfilled : Filled cb enc.leaf 0 _ values := hlayout.filled hvalues
  cases hf : parent.lengthField with
  | none =>
    simp only [SizeInRange, prefixSize, hf, Option.map_none, Option.getD_none, Nat.zero_add] at hsize hroom
    obtain ⟨body, hrun, hbody, -⟩ := encodeMembers_append room henc hfilled []
      (by rwa [length_nil, Nat.zero_add])
    have hempty : body.isEmpty = false := by
      refine isEmpty_eq_false_iff.mpr fun hnil => ?_
      rw [hnil, byteBits_nil] at hbody
      exact hfilled.structBits_ne_nil hsize hbody.symm
    refine ⟨body, ?_, ?_⟩
    · simp only [frStructToNetwork, hf, mergeSort_memberPairs hchildren, hrun, nil_append]
    · simp only [frStructFromNetwork, hempty, hf]
      exact decodeBody_eq hcb hfilled [] hbody
  | some f =>
    -- the decoder finds the size of the members in front of them
    simp only [SizeInRange, prefixSize, hf, Option.map_some, Option.getD_some] at hsize hroom
    obtain ⟨hclaimed, htotal⟩ := hsize
    obtain ⟨room', hroom'⟩ : ∃ room', room' = min room (256 ^ f.size) := ⟨_, rfl⟩
    have hlimit : min room f.limit = room' := by
      rw [hroom']
      cases f <;> rfl
    have hzeros : (replicate f.size (0 : UInt8)).length = f.size := length_replicate
    have hheader : dbuffIn room' [] (replicate f.size 0) = .ok (replicate f.size 0) := by
      rw [dbuffIn, if_pos, nil_append]
      rw [length_nil, hzeros]
      omega
    obtain ⟨body, hrun, hbody, hlen⟩ := encodeMembers_append room' henc hfilled
      (replicate f.size 0) (by rw [hzeros]; omega)
    rw [← hlen] at hclaimed
    have hlength : (replicate f.size 0 ++ body).length - f.size + parent.lengthOffset =
        body.length + parent.lengthOffset := by
      rw [length_append, hzeros]
      omega
    obtain ⟨header, hheaderEq⟩ : ∃ header,
      header = nboBytes f.size (body.length + parent.lengthOffset) := ⟨_, rfl⟩
    have hsize : header.length = f.size := by rw [hheaderEq, length_nboBytes]
    refine ⟨header ++ body, ?_, ?_⟩
    · simp only [frStructToNetwork, hf, mergeSort_memberPairs hchildren, hlimit, hheader, hrun, hlength]
      rw [if_neg (by omega), drop_left' hzeros, ← hheaderEq]
    have hpos : 0 < f.size := by cases f <;> decide
    have hempty : (header ++ body).isEmpty = false := by
      refine isEmpty_eq_false_iff.mpr (ne_nil_of_length_pos ?_)
      rw [length_append]
      omega
    have hclaim : nboValue ((header ++ body).take f.size) = body.length + parent.lengthOffset := by
      rw [take_left' hsize, hheaderEq, nboValue_nboBytes hclaimed]
    have hdecoded := decodeBody_eq hcb hfilled header hbody
    rw [hsize] at hdecoded
    simp only [frStructFromNetwork, hempty, hf, hclaim, Nat.add_sub_cancel, Bool.false_eq_true,
      if_false, length_append, hsize]
    rw [if_neg (by omega), if_neg (by omega), if_neg (by omega), hdecoded, length_append, hsize]

/-- Sixteen bits in four fields, an integer and octets, as the dictionaries define them. -/
def flagsStruct : StructDef where
  members :=
    [⟨.int .uint16, true, 13, false, false, none⟩, ⟨.bool, true, 1, false, false, none⟩,
      ⟨.bool, true, 1, false, false, none⟩, ⟨.bool, true, 1, false, false, none⟩,
      ⟨.int .int8, false, 1, false, false, none⟩, ⟨.octets, false, 0, false, false, none⟩]
  lengthField := none
  lengthOffset := 0

theorem layout_flagsStruct : Layout 0 flagsStruct.members :=
  .bits ⟨rfl, by decide, by decide, .inr ⟨.uint16, rfl, rfl⟩⟩ <|
    .bits ⟨rfl, by decide, by decide, .inl rfl⟩ <| .bits ⟨rfl, by decide, by decide, .inl rfl⟩ <|
      .bits ⟨rfl, by decide, by decide, .inl rfl⟩ <| .integer ⟨rfl, rfl, .int8, rfl, rfl⟩ <|
        .octets ⟨rfl, rfl, rfl, rfl⟩

def flagsValues : List Value :=
  [.int (Box.ofWord .uint16 4660), .bool true, .bool false, .bool true, .int (Box.ofWord .int8 254),
    .octets [7, 8, 9]]

theorem inRange_flagsValues : List.Forall₂ InRange flagsStruct.members flagsValues :=
  .cons ⟨rfl, fun _ => by decide⟩ <| .cons rfl <| .cons rfl <| .cons rfl <|
    .cons ⟨rfl, fun h => by cases h⟩ <| .cons ⟨rfl, by decide⟩ .nil

/-- The pairs in the opposite order, and just enough room -/
theorem frStructFromNetwork_frStructToNetwork_flags :
    ∃ bytes, frStructToNetwork ⟨none, fun _ => []⟩ 6 flagsStruct (memberPairs 1 flagsValues).reverse =
        .ok bytes ∧
      frStructFromNetwork ⟨none, none, fun _ _ => none, fun _ _ _ => none⟩ flagsStruct bytes =
        .decoded bytes.length (.struct (memberPairs 1 flagsValues)) :=
  frStructFromNetwork_frStructToNetwork rfl rfl layout_flagsStruct inRange_flagsValues
    (cons_ne_nil _ _) (reverse_perm _) (by decide)

/-- Empty octets come to no bytes, which the encoder takes for an error. -/
theorem frStructToNetwork_emptyOctets :
    frStructToNetwork ⟨none, fun _ => []⟩ 64
        ⟨[⟨.int .uint8, false, 1, false, false, none⟩, ⟨.octets, false, 0, false, false, none⟩],
          none, 0⟩
        (memberPairs 1 [.int (Box.ofWord .uint8 5), .octets []]) =
      .error .fatal := by
  rw [frStructToNetwork, mergeSort_memberPairs (List.Perm.refl _)]
  rfl

end RoundTrip

end FreeRadius.Struct
