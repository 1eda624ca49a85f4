import FreeRadius.Radius.Fragments

/-!
# Attributes with a continuation byte

The attributes of WiMAX are in fragments if they are too long for one attribute. The decoder puts
those of one fragment into the groups of their vendor. Those of several fragments go to the list
of the caller, and the group of their vendor stays empty.
-/

namespace FreeRadius.Radius

open Library List

variable {Da V : Type} {dict : Dict Da} {vendor da : Da} {value : List UInt8}

/-- An attribute of a vendor that has a continuation byte. -/
structure WimaxDa (dict : Dict Da) (vendor da : Da) (value : List UInt8) : Prop where
  vendorKnown : dict.childByNum dict.attrVendorSpecific (dict.attr vendor) = some vendor
  pen : dict.attr vendor < 256 ^ 4
  continuation : ∃ dv, dict.vendorByNum (dict.attr vendor) = some dv ∧ dv.continuation = true
  known : dict.childByNum vendor (dict.attr da) = some da
  num : dict.attr da < 256
  octets : OctetsDa dict da value
  size : 1 ≤ value.length ∧ value.length ≤ 4000

def wimaxPair (dict : Dict Da) (vendor da : Da) (value : List UInt8) : Pair Da V :=
  .group dict.attrVendorSpecific [.group vendor [.leaf da (.octets value)]]

def wimaxHeader (dict : Dict Da) (vendor da : Da) : List UInt8 :=
  [attrVendorSpecificNum, 9] ++ nboBytes 4 (dict.attr vendor) ++ [UInt8.ofNat (dict.attr da), 3, 0]

def wimaxEncoding (dict : Dict Da) (vendor da : Da) (value : List UInt8) : List UInt8 :=
  fragments (stamp 9 8 7 (wimaxHeader dict vendor da)) (cut 246 value)

/-- The value is written to attributes, and it is decoded from them to one leaf below the vendor,
whatever follows. -/
def WimaxRoundTrips [DecidableEq Da] (dict : Dict Da) (ep : EncodeParams Da V)
    (dp : DecodeParams Da V) (dc : DecodeCtx) (vendor da : Da) (value : List UInt8) : Prop :=
  ∃ bytes, (∀ ec vps room, bytes.length ≤ room →
      frRadiusEncodePair dict ep ec (wimaxPair dict vendor da value :: vps) room =
        .ok (bytes, ec, vps)) ∧
    ∀ rest s, frRadiusDecodePair dict dp dc (bytes ++ rest) s =
      (some bytes.length, s.nest [dict.attrVendorSpecific, vendor] (.leaf da (.octets value)))

namespace WimaxDa

theorem length_header : (wimaxHeader dict vendor da).length = 9 := by
  simp [wimaxHeader]

variable (h : WimaxDa dict vendor da value)

include h

theorem value_ne_nil : value ≠ [] := length_pos_iff.mp h.size.1

theorem pieces : Pieces 246 value (cut 246 value) :=
  pieces_cut (by decide) h.value_ne_nil

section Encode

variable {ep : EncodeParams Da V} {ec : EncodeCtx} {room : ℕ}

theorem length_encoding : 9 + value.length ≤ (wimaxEncoding dict vendor da value).length := by
  have hpos : 0 < (cut 246 value).length := by
    have := h.size.1
    rw [h.pieces.length_eq (by decide)]
    omega
  rw [wimaxEncoding, length_fragments length_header, h.pieces.flatten]
  omega

theorem encodeWimax_eq (hroom : (wimaxEncoding dict vendor da value).length ≤ room) :
    encodeWimax dict ep ec vendor (.leaf da (.octets value)) room =
      .ok (wimaxEncoding dict vendor da value, ec) := by
  have hsize := h.length_encoding
  have hheader : [attrVendorSpecificNum, 9] ++ nboBytes 4 (dict.attr vendor) ++
      [UInt8.ofNat (dict.attr (Pair.leaf da (.octets value) : Pair Da V).da), 3, 0] =
        wimaxHeader dict vendor da := rfl
  have hwrite : write room (wimaxHeader dict vendor da) = .ok (wimaxHeader dict vendor da) :=
    write_of_le (by rw [length_header]; omega)
  have hvalue : encodeValue dict ep ec (.leaf da (.octets value)) (room - 9) = .ok (value, ec) :=
    h.octets.encodeLeaf h.value_ne_nil (by omega)
  unfold encodeWimax
  simp only [hheader, hwrite, encodeOk_bind, hvalue, if_neg h.value_ne_nil, length_header]
  split
  · next hlong =>
    have hfragment : attrFragment (wimaxHeader dict vendor da ++ value) value.length 9 8 7 room =
        .ok (some (wimaxEncoding dict vendor da value)) :=
      attrFragment_eq (by decide) (by decide) (by decide) (by decide) length_header h.pieces
        (by omega) hroom
    rw [hfragment]
    rfl
  · next hshort =>
    rw [wimaxEncoding, h.pieces.eq_singleton (by omega), show 9 + value.length - 6 = 3 + value.length by omega]
    rfl

variable [DecidableEq Da]

theorem frRadiusEncodePair_eq
    (hroom : (wimaxEncoding dict vendor da value).length ≤ room) (vps : List (Pair Da V)) :
    frRadiusEncodePair dict ep ec (wimaxPair dict vendor da value :: vps) room =
      .ok (wimaxEncoding dict vendor da value, ec, vps) := by
  obtain ⟨dv, hdv, hcontinuation⟩ := h.continuation
  have hvendor : encodeVendor dict ep ec (.group vendor [.leaf da (.octets value)]) room =
      .ok (wimaxEncoding dict vendor da value, ec) := by
    refine encodeEach_singleton ?_
    simp only [Pair.da, hdv, Option.map_some, Option.getD_some, hcontinuation, if_true]
    exact h.encodeWimax_eq hroom
  have hvsa : encodeVsa dict ep ec (wimaxPair dict vendor da value) room =
      .ok (wimaxEncoding dict vendor da value, ec) := encodeEach_singleton hvendor
  have htag : isTagGroup dict dict.attrVendorSpecific = false := by
    simp [isTagGroup, dict.vendorSpecific.2]
  unfold wimaxPair at *
  simp only [frRadiusEncodePair, htag, Bool.false_eq_true, if_false, encodeUntagged,
    dict.vendorSpecific.2, hvsa, encodeOk_bind]
  rfl

end Encode

section Decode

variable [DecidableEq Da] {dp : DecodeParams Da V} {dc : DecodeCtx}

/-- What is behind the header of an attribute. -/
def body (dict : Dict Da) (vendor da : Da) (flag : UInt8) (p : List UInt8) : List UInt8 :=
  nboBytes 4 (dict.attr vendor) ++ (UInt8.ofNat (dict.attr da) :: UInt8.ofNat (3 + p.length) :: flag :: p)

omit h in
omit [DecidableEq Da] in
theorem length_body (flag : UInt8) (p : List UInt8) :
    (body dict vendor da flag p).length = 7 + p.length := by
  simp only [body, length_append, length_nboBytes, length_cons]
  omega

variable {attr p : List UInt8} {flag : UInt8}

omit h in
theorem decodePairValue_vsa (hattr : attr ≠ []) (hlen : attr.length ≤ 253) (rest : List UInt8)
    (s : Lists Da V) :
    frRadiusDecodePairValue dict dp dc dict.attrVendorSpecific (attr ++ rest) attr.length s =
      orRaw dict dict.attrVendorSpecific attr (decodeVsa dict dc
        (decoders dict dp dc (2 * (attr ++ rest).length + 1)) dict.attrVendorSpecific (attr ++ rest)
        attr.length s) := by
  have hpos : 0 < attr.length := length_pos_iff.mpr hattr
  have hroot : ((dict.parent dict.attrVendorSpecific).elim false fun parent =>
      (dict.flags parent).isExtended) = false := by
    rw [(dict.child dict.vendorSpecific.1).2.1, Option.elim_some, dict.root_flags]
    rfl
  rw [frRadiusDecodePairValue_eq, decodePairValueStep, if_neg (by omega),
    if_neg (by rw [length_append]; omega), if_neg (by omega), dict.vendorSpecific.2]
  simp [hroot]

/-- The attribute of a vendor that has a continuation byte is found, if the first byte of the
vendor's number is zero. -/
theorem decodeVsa_eq (hpen : dict.attr vendor < 256 ^ 3) (d : Decoders Da V) (rest : List UInt8)
    (s : Lists Da V) :
    decodeVsa dict dc d dict.attrVendorSpecific (body dict vendor da flag p ++ rest)
        (body dict vendor da flag p).length s =
      decodeWimax dict d vendor (body dict vendor da flag p ++ rest) (7 + p.length) s := by
  obtain ⟨dv, hdv, hcontinuation⟩ := h.continuation
  have hlen : (body dict vendor da flag p).length = _ := length_body flag p
  have htake : (body dict vendor da flag p ++ rest).take 4 = nboBytes 4 (dict.attr vendor) := rfl
  have hbyte : byte (body dict vendor da flag p ++ rest) 0 = 0 := by
    have hzero : dict.attr vendor / 256 ^ 3 = 0 := Nat.div_eq_of_lt hpen
    exact congrArg UInt8.ofNat hzero
  rw [decodeVsa, if_neg (by rw [length_append]; omega), if_neg (by omega),
    if_neg (not_not.mpr hbyte)]
  simp only [htake, nboValue_nboBytes h.pen, h.vendorKnown, hdv, hcontinuation, if_true, hlen]

theorem decodeVsa_none (hpen : 256 ^ 3 ≤ dict.attr vendor) (d : Decoders Da V) (rest : List UInt8)
    (s : Lists Da V) :
    decodeVsa dict dc d dict.attrVendorSpecific (body dict vendor da flag p ++ rest)
      (body dict vendor da flag p).length s = (none, s) := by
  have hlen : (body dict vendor da flag p).length = _ := length_body flag p
  have hbyte : byte (body dict vendor da flag p ++ rest) 0 ≠ 0 := by
    have hpos : 0 < dict.attr vendor / 256 ^ 3 := Nat.div_pos hpen (by decide)
    have hlt : dict.attr vendor / 256 ^ 3 < 256 := Nat.div_lt_of_lt_mul h.pen
    have hnat : (UInt8.ofNat (dict.attr vendor / 256 ^ 3)).toNat = _ := UInt8.toNat_ofNat_of_lt' hlt
    intro hzero
    have hzero' : UInt8.ofNat (dict.attr vendor / 256 ^ 3) = 0 := hzero
    rw [hzero'] at hnat
    exact hpos.ne hnat
  rw [decodeVsa, if_neg (by rw [length_append]; omega), if_neg (by omega), if_pos hbyte]

theorem decodeWimax_one (hmax : value.length ≤ 246) (depth : ℕ)
    (rest : List UInt8) (s : Lists Da V) :
    decodeWimax dict (decoders dict dp dc (depth + 1)) vendor (body dict vendor da 0 value ++ rest)
        (7 + value.length) s =
      (some (7 + value.length),
        s.nest [dict.attrVendorSpecific, vendor] (.leaf da (.octets value))) := by
  have hpos := h.size.1
  have hlen : (byte (body dict vendor da 0 value ++ rest) 5).toNat = 3 + value.length :=
    UInt8.toNat_ofNat_of_lt' (show 3 + value.length < 256 by omega)
  have hnum : (byte (body dict vendor da 0 value ++ rest) 4).toNat = dict.attr da :=
    UInt8.toNat_ofNat_of_lt' h.num
  have hflag : byte (body dict vendor da 0 value ++ rest) 6 &&& 0x80 = 0 :=
    show (0 : UInt8) &&& 0x80 = 0 by decide
  have hdrop : (body dict vendor da 0 value ++ rest).drop 7 = value ++ rest := rfl
  have hvalue : ∀ t : Lists Da V, (decoders dict dp dc (depth + 1)).value da (value ++ rest) value.length t =
      (some value.length, t.nest [] (.leaf da (.octets value))) := by
    intro t
    exact (decodePairValueStep_leaf _ (by rw [h.octets.type]; rfl) h.value_ne_nil (by omega) rest t).trans
      (h.octets.decodeLeafValue t)
  unfold decodeWimax
  simp only [hlen, hnum, h.known, Option.getD_some, hflag, if_true, hdrop, Nat.add_sub_cancel_left,
    inGroup_nest (inGroup_nest hvalue)]
  rw [if_neg (by omega), if_neg (by omega), if_neg (by omega)]

omit h in
variable (dp dc) in
/-- Whatever octets are decoded from, nothing in front of them changes. -/
theorem decodePairValueStep_octets (hda : OctetsDa dict da value) (d : Decoders Da V)
    (data : List UInt8) (n : ℕ) (s : Lists Da V) :
    ∃ l, (decodePairValueStep dict dp dc d da data n s).2.out = s.out ++ l := by
  have hsplit : ∀ attr, splitTag (dict.flags da) (dict.type da) attr = some (0, attr) := fun attr =>
    if_pos (by rw [hda.hasTag]; rfl)
  have hdecrypt : ∀ n p, decryptValue dp dc (dict.flags da) n p = some p := fun n p => by
    rw [decryptValue, hda.encrypt]
  have hleaf : ∀ attr, ∃ l, (decodeLeafValue dict dp dc da attr s).2.out = s.out ++ l := by
    intro attr
    unfold decodeLeafValue
    simp only [hsplit, hdecrypt, Lists.openTag_zero]
    split
    · split
      · exact ⟨[], (append_nil _).symm⟩
      · exact ⟨_, rfl⟩
    · exact ⟨_, rfl⟩
  unfold decodePairValueStep
  simp only [hda.type]
  split
  · exact ⟨[], (append_nil _).symm⟩
  split
  · exact ⟨[], (append_nil _).symm⟩
  · split
    · exact ⟨[], (append_nil _).symm⟩
    · exact hleaf _

/-- If there are more fragments, the list begins with a group for the vendor that is empty. -/
theorem decodeWimax_many {rest : List UInt8} (hp : 0 < p.length ∧ p.length ≤ 246) (depth : ℕ) :
    (decodeWimax dict (decoders dict dp dc (depth + 1)) vendor (body dict vendor da 0x80 p ++ rest)
      (7 + p.length) (⟨[], []⟩ : Lists Da V)).2.out.head? =
        some (.group dict.attrVendorSpecific [.group vendor []]) := by
  have hlen : (byte (body dict vendor da 0x80 p ++ rest) 5).toNat = 3 + p.length :=
    UInt8.toNat_ofNat_of_lt' (show 3 + p.length < 256 by omega)
  have hnum : (byte (body dict vendor da 0x80 p ++ rest) 4).toNat = dict.attr da :=
    UInt8.toNat_ofNat_of_lt' h.num
  have hflag : ¬byte (body dict vendor da 0x80 p ++ rest) 6 &&& 0x80 = 0 :=
    show ¬(0x80 : UInt8) &&& 0x80 = 0 by decide
  have hempty : (inGroup dict.attrVendorSpecific (inGroup vendor fun s => (some 0, s))
      (⟨[], []⟩ : Lists Da V)).2 = ⟨[.group dict.attrVendorSpecific [.group vendor []]], []⟩ := rfl
  unfold decodeWimax
  simp only [hlen, hnum, h.known, Option.getD_some, if_neg hflag, hempty]
  rw [if_neg (by omega), if_neg (by omega), if_neg (by omega)]
  split
  · rfl
  next used held hloop =>
  split
  · rfl
  obtain ⟨l, hl⟩ := decodePairValueStep_octets dp dc h.octets (decoders dict dp dc depth)
    held held.length ⟨[.group dict.attrVendorSpecific [.group vendor []]], []⟩
  change (decodePairValueStep dict dp dc (decoders dict dp dc depth) da held held.length _).2.out = _ at hl
  simp only [decoders]
  rcases hvalue : decodePairValueStep dict dp dc (decoders dict dp dc depth) da held held.length
    ⟨[.group dict.attrVendorSpecific [.group vendor []]], []⟩ with ⟨_ | ret, t⟩
  · rw [hvalue] at hl
    exact congrArg List.head? hl
  · rw [hvalue] at hl
    exact congrArg List.head? hl

omit [DecidableEq Da] in
theorem encoding_eq : ∃ flag p rest,
    wimaxEncoding dict vendor da value = attrVendorSpecificNum ::
      UInt8.ofNat (2 + (body dict vendor da flag p).length) :: body dict vendor da flag p ++ rest ∧
    (0 < p.length ∧ p.length ≤ 246) ∧
    (value.length ≤ 246 → flag = 0 ∧ p = value ∧ rest = []) ∧ (246 < value.length → flag = 0x80) := by
  have hpieces := h.pieces
  have hmem := hpieces.forall_mem (by decide)
  unfold wimaxEncoding
  cases hcut : cut 246 value with
  | nil =>
    rw [hcut] at hpieces
    exact absurd hpieces.flatten.symm hpieces.ne_nil
  | cons p ps =>
    rw [hcut] at hpieces hmem
    obtain ⟨hne, hle⟩ := hmem p mem_cons_self
    have hpos : 0 < p.length := length_pos_iff.mpr hne
    have hlen : ∀ flag, 2 + (body dict vendor da flag p).length = 9 + p.length := by
      intro flag
      rw [length_body]
      omega
    cases ps with
    | nil =>
      have hp : p = value := by rw [← hpieces.flatten, flatten_singleton]
      refine ⟨0, p, [], ?_, ⟨hpos, hle⟩, fun _ => ⟨rfl, hp, rfl⟩, fun hlong => ?_⟩
      · rw [hlen, append_nil]
        rfl
      · rw [← hp] at hlong
        omega
    | cons q ps =>
      refine ⟨0x80, p, fragments (stamp 9 8 7 (wimaxHeader dict vendor da)) (q :: ps), ?_, ⟨hpos, hle⟩,
        fun hshort => ?_, fun _ => rfl⟩
      · rw [hlen]
        rfl
      · have hone := hpieces.eq_singleton hshort
        simp at hone

omit h in
omit [DecidableEq Da] in
theorem head?_orRaw {da : Da} {r : Decoded Da V} {vp : Pair Da V} (h : r.2.out.head? = some vp) :
    (orRaw dict da attr r).2.out.head? = some vp := by
  obtain ⟨l, hl⟩ : ∃ l, r.2.out = vp :: l := by
    cases hout : r.2.out with
    | nil =>
      rw [hout] at h
      cases h
    | cons x l =>
      rw [hout] at h
      cases h
      exact ⟨l, rfl⟩
  unfold orRaw
  split
  · simp [frPairRawFromNetwork, Lists.append, hl]
  · exact h

/-- What the decoder makes of an attribute of a vendor whose number has four bytes, or of the
first one of several fragments, is not the leaf below the vendor. -/
theorem frRadiusDecodePair_ne (hfail : 246 < value.length ∨ 256 ^ 3 ≤ dict.attr vendor) :
    (frRadiusDecodePair dict dp dc (wimaxEncoding dict vendor da value) (⟨[], []⟩ : Lists Da V)).2 ≠
      Lists.nest ⟨[], []⟩ [dict.attrVendorSpecific, vendor] (.leaf da (.octets value)) := by
  obtain ⟨flag, p, rest, heq, hp, -, hlong⟩ := h.encoding_eq
  have hbody : (body dict vendor da flag p).length = 7 + p.length := length_body flag p
  have hne : body dict vendor da flag p ≠ [] := length_pos_iff.mp (by omega)
  rw [heq, frRadiusDecodePair_plain dict.vendorSpecific.1 (by decide) hne (by omega), Prod.map_snd,
    id, decodePairValue_vsa hne (by omega)]
  intro hlists
  have hhead := congrArg (fun t => t.out.head?) hlists
  rcases Nat.lt_or_ge (dict.attr vendor) (256 ^ 3) with hpen | hpen
  · obtain rfl := hlong (hfail.resolve_right (Nat.not_le.mpr hpen))
    simp only [h.decodeVsa_eq hpen, head?_orRaw (h.decodeWimax_many hp _)] at hhead
    simp [Lists.nest, appendNested, findGroup] at hhead
  · simp [h.decodeVsa_none hpen, orRaw, frPairRawFromNetwork, Lists.append, Lists.nest,
      appendNested, findGroup] at hhead

end Decode

end WimaxDa

end FreeRadius.Radius
