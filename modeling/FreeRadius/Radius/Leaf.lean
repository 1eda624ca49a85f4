import FreeRadius.Radius.Decode
import FreeRadius.Radius.Encode

/-!
# Attributes that are encoded and decoded again

What it means that a leaf survives the codec, and that User-Passwords do. The values of all
leaves are encoded by `encode_value` and decoded by `fr_radius_decode_pair_value`; around
them an attribute of the top level has only a header.
-/

namespace FreeRadius.Radius

open Library List

variable {Da V : Type} {dict : Dict Da}

/-- The encoder and the decoder use the same secret and the same authenticator. -/
structure Agree (ep : EncodeParams Da V) (dp : DecodeParams Da V) (ec : EncodeCtx)
    (dc : DecodeCtx) : Prop where
  md5 : dp.md5 = ep.md5
  secret : dc.secret = ec.secret
  vector : dc.requestAuthenticator = some ec.requestAuthenticator

/-- A leaf of the top level whose attribute is a header and its value. -/
structure Plain (dict : Dict Da) (da : Da) : Prop where
  leaf : (dict.type da).isLeaf = true
  internal : (dict.flags da).internal = false
  num : ∃ num : UInt8, dict.childByNum dict.root num.toNat = some da ∧ num ≠ 0 ∧
    num ≠ attrMessageAuthenticator ∧ special num = false

def tagged (dict : Dict Da) (tag : UInt8) (vp : Pair Da V) : Pair Da V :=
  if tag = 0 then vp else .group (dict.tagGroup tag.toNat) [vp]

theorem Lists.openTag_zero (s : Lists Da V) : s.openTag 0 = s := if_pos (.inl rfl)

section Definitions

variable [DecidableEq Da]

/-- The lists after a leaf has been decoded: it is in the group of its tag, or in the list of
the caller if it has none. -/
def placed (dict : Dict Da) (tag : UInt8) (da : Da) (value : Value V) (s : Lists Da V) :
    Lists Da V :=
  if tag = 0 then s.append (.leaf da value)
  else { s.openTag tag with
    tags := appendTagged tag (dict.path da) (.leaf da value) (s.openTag tag).tags }

variable (dict : Dict Da) (ep : EncodeParams Da V) (dp : DecodeParams Da V) (ec : EncodeCtx)
  (dc : DecodeCtx)

/-- The value is encoded, and whatever follows it, it is decoded from its bytes to the same
value with this tag. -/
def RoundTrips (tag : UInt8) (da : Da) (value : Value V) (room : ℕ) : Prop :=
  ∃ bytes ec', encodeLeaf dict ep ec da value room = .ok (bytes, ec') ∧ bytes ≠ [] ∧
    ∀ rest s, frRadiusDecodePairValue dict dp dc da (bytes ++ rest) bytes.length s =
      (some bytes.length, placed dict tag da value s)

/-- The same for the attribute, outside of other groups than the one of its tag. -/
def AttributeRoundTrips (tag : UInt8) (da : Da) (value : Value V) (room : ℕ) : Prop :=
  ∀ vps, ∃ bytes ec', frRadiusEncodePair dict ep { ec with tag := 0 }
      (tagged dict tag (.leaf da value) :: vps) room = .ok (bytes, ec', vps) ∧
    ∀ rest s, frRadiusDecodePair dict dp dc (bytes ++ rest) s =
      (some bytes.length, placed dict tag da value s)

/-- A leaf comes back wherever it is encoded: below a vendor, if there is enough room for its
value, and at the top level. -/
structure Survives (tag : UInt8) (da : Da) (value : Value V) (need : ℕ) : Prop where
  nested : ∀ room, need ≤ room → room ≤ 253 →
    RoundTrips dict ep dp { ec with tag := tag } dc tag da value room
  topLevel : Plain dict da → ∀ room, 255 ≤ room →
    AttributeRoundTrips dict ep dp ec dc tag da value room

end Definitions

section Samples

def EncodeParams.sample : EncodeParams Da V where
  md5 _ := Digest.zero
  toNetwork _ := []
  encodeAbinary _ _ := .error .malformed
  encodeAbinary_le h := nomatch h
  encodeStructural _ _ _ := .error .malformed

def DecodeParams.sample : DecodeParams Da V where
  md5 _ := Digest.zero
  fromNetwork _ _ := none
  decodeAbinary _ := none
  structFromNetwork _ _ s := (false, s)
  decodeGroup _ _ := none

def EncodeCtx.sample : EncodeCtx where
  secret := [115, 101, 99, 114, 101, 116]
  secureTransport := false
  proxyState := 0
  requestAuthenticator := Digest.zero
  rand _ := 255
  saltOffset := 0
  tag := 0
  requestCode := 1
  code := 2
  id := 0
  addProxyState := false
  disallowTunnelPasswords := false
  seenMessageAuthenticator := false

def DecodeCtx.sample : DecodeCtx where
  secret := [115, 101, 99, 114, 101, 116]
  requestAuthenticator := some Digest.zero
  tunnelPasswordZeros := false
  debug := false

end Samples

variable {length : ℕ} {s : List UInt8} {tag : UInt8} {ctx' : EncodeCtx} {vp : Pair Da V}

theorem fixLength_eq (h : length = 0 ∨ length = s.length) : fixLength length s = s := by
  unfold fixLength
  rcases h with rfl | rfl
  · rfl
  · split
    · rfl
    · rw [if_neg (Nat.lt_irrefl _), take_length]

theorem variableFromNetwork_eq (h : length = 0 ∨ length = s.length) :
    variableFromNetwork length s = some s := by
  unfold variableFromNetwork
  rcases h with rfl | rfl
  · rfl
  · split
    · rfl
    · rw [if_neg (Nat.lt_irrefl _), take_length]

section Decode

variable [DecidableEq Da] {params : DecodeParams Da V} {ctx : DecodeCtx} {da : Da}
  {bytes : List UInt8}

theorem decodePairValueStep_leaf (d : Decoders Da V) (hda : (dict.type da).isLeaf = true)
    (hne : bytes ≠ []) (hlen : bytes.length ≤ 128 * 1024) (rest : List UInt8) (s : Lists Da V) :
    decodePairValueStep dict params ctx d da (bytes ++ rest) bytes.length s =
      decodeLeafValue dict params ctx da bytes s := by
  have hpos : bytes.length ≠ 0 := fun h => hne (eq_nil_of_length_eq_zero h)
  have hfits : ¬(bytes ++ rest).length < bytes.length := by
    rw [length_append]
    omega
  rw [decodePairValueStep, if_neg (by omega), if_neg hfits, if_neg hpos, take_left]
  cases htype : dict.type da <;> rw [htype] at hda <;> first | rfl | exact absurd hda Bool.false_ne_true

theorem frRadiusDecodePairValue_leaf (hda : (dict.type da).isLeaf = true) (hne : bytes ≠ [])
    (hlen : bytes.length ≤ 128 * 1024) (rest : List UInt8) (s : Lists Da V) :
    frRadiusDecodePairValue dict params ctx da (bytes ++ rest) bytes.length s =
      decodeLeafValue dict params ctx da bytes s :=
  decodePairValueStep_leaf _ hda hne hlen rest s

theorem decodeLeafValue_eq {attr p q : List UInt8} {value : Value V}
    (htag : splitTag (dict.flags da) (dict.type da) attr = some (tag, p))
    (hdecrypt : decryptValue params ctx (dict.flags da) attr.length p = some q)
    (hvalue : decodeLeaf dict params da q = some value) (s : Lists Da V) :
    decodeLeafValue dict params ctx da attr s = (some attr.length, placed dict tag da value s) := by
  unfold decodeLeafValue placed
  simp only [htag, hdecrypt, hvalue]
  split
  · next h => rw [h, Lists.openTag_zero]
  · rfl

/-- An attribute of the top level is decoded by its value. -/
theorem frRadiusDecodePair_plain {num : UInt8} (hda : dict.childByNum dict.root num.toNat = some da)
    (hspecial : special num = false) (hne : bytes ≠ []) (hlen : bytes.length ≤ 253)
    (rest : List UInt8) (s : Lists Da V) :
    frRadiusDecodePair dict params ctx
        (num :: UInt8.ofNat (2 + bytes.length) :: bytes ++ rest) s =
      (frRadiusDecodePairValue dict params ctx da (bytes ++ rest) bytes.length s).map
        (Option.map (2 + ·)) id := by
  have hpos : 0 < bytes.length := length_pos_iff.mpr hne
  have hbyte₀ : byte (num :: UInt8.ofNat (2 + bytes.length) :: bytes ++ rest) 0 = num := rfl
  have hbyte₁ : (byte (num :: UInt8.ofNat (2 + bytes.length) :: bytes ++ rest) 1).toNat =
      2 + bytes.length := UInt8.toNat_ofNat_of_lt' (show 2 + bytes.length < 256 by omega)
  have hfits : (num :: UInt8.ofNat (2 + bytes.length) :: bytes ++ rest).length =
      2 + bytes.length + rest.length := by
    simp only [cons_append, length_cons, length_append]
    omega
  have hdrop : (num :: UInt8.ofNat (2 + bytes.length) :: bytes ++ rest).drop 2 = bytes ++ rest := rfl
  unfold frRadiusDecodePair
  simp only [hbyte₀, hbyte₁, hfits, hda, hspecial, hdrop, Option.getD_some, Bool.false_eq_true,
    false_and, if_false, Nat.add_sub_cancel_left]
  rw [if_neg (by omega), if_neg (by omega)]
  rcases frRadiusDecodePairValue dict params ctx da (bytes ++ rest) bytes.length s with ⟨_ | ret, t⟩ <;> rfl

end Decode

section Encode

variable {params : EncodeParams Da V} {ctx : EncodeCtx} {da : Da}
  {bytes out : List UInt8} {room : ℕ} {value : Value V} {flags : Flags} {e : Encrypted}

theorem encodeLeaf_eq {tag : List UInt8} (htag : tagBytes ctx.tag (dict.flags da) value = tag)
    (hroom : tag.length ≤ room)
    (hbytes : valueToNetwork params (dict.flags da) value (room - tag.length) = .ok bytes)
    (hne : bytes ≠ [])
    (hencrypt : encryptValue params ctx (dict.flags da) bytes (room - tag.length) = .ok (some e))
    (hout : tagInteger (dict.flags da) value e = some out) :
    encodeLeaf dict params ctx da value room = .ok (tag ++ out, e.ctx) := by
  unfold encodeLeaf
  simp only [htag, if_neg (Nat.not_lt.mpr hroom), hbytes, encodeOk_bind, if_neg hne, hencrypt, hout]
  rfl

theorem write_ok (h : write room bytes = .ok out) : out = bytes ∧ out.length ≤ room := by
  unfold write at h
  split at h
  · next hle => cases h; exact ⟨rfl, hle⟩
  · cases h

theorem encodeOk_of_bind {β γ : Type} {x : Except EncodeError β} {f : β → Except EncodeError γ}
    {r : γ} (h : (x >>= f) = .ok r) : ∃ a, x = .ok a ∧ f a = .ok r := by
  cases x with
  | error e => cases h
  | ok a => exact ⟨a, rfl, h⟩

theorem valueToNetwork_le (h : valueToNetwork params flags value room = .ok bytes) :
    bytes.length ≤ room := by
  cases value with
  | string s =>
    rw [valueToNetwork] at h
    split at h
    · exact params.encodeAbinary_le h
    · exact (write_ok h).2
  | octets s => exact (write_ok h).2
  | uint32 n => exact (write_ok h).2
  | other v => exact (write_ok h).2

theorem encryptValue_le {value : List UInt8} (hvalue : value.length ≤ room)
    (h : encryptValue params ctx flags value room = .ok (some e)) : e.bytes.length ≤ room := by
  unfold encryptValue at h
  split at h
  · cases h
    exact hvalue
  · obtain ⟨bytes, hbytes, he⟩ := encodeOk_of_bind h
    cases he
    exact (write_ok hbytes).2
  · split at h
    · cases h
    obtain ⟨tag, htag⟩ : ∃ tag, (if flags.hasTag then [0] else ([] : List UInt8)) = tag := ⟨_, rfl⟩
    simp only [htag] at h
    split at h
    · cases h
    next bytes hbytes =>
    cases h
    simp only [encodeTunnelPassword] at hbytes
    split_ifs at hbytes
    cases hbytes
    rw [length_append, length_take]
    omega
  · obtain ⟨bytes, hbytes, he⟩ := encodeOk_of_bind h
    cases he
    exact (write_ok hbytes).2

theorem length_tagInteger (h : tagInteger flags value e = some out) :
    out.length = e.bytes.length := by
  unfold tagInteger at h
  split at h
  · split at h
    · cases h; rfl
    split at h
    · cases h
    · cases h
      exact length_set
  · cases h; rfl

theorem encodeLeaf_le (h : encodeLeaf dict params ctx da value room = .ok (bytes, ctx')) :
    bytes.length ≤ room := by
  unfold encodeLeaf at h
  simp only at h
  split at h
  · cases h
  obtain ⟨value, hvalue, h⟩ := encodeOk_of_bind h
  split at h
  · cases h
    exact Nat.zero_le _
  obtain ⟨e, he, h⟩ := encodeOk_of_bind h
  split at h
  · cases h
    exact Nat.zero_le _
  split at h
  · cases h
    exact Nat.zero_le _
  next hout =>
  cases h
  have hle := encryptValue_le (valueToNetwork_le hvalue) he
  rw [length_append, length_tagInteger hout]
  omega

theorem encodeChild_leaf (hroom : 255 ≤ room) :
    encodeChild dict params ctx (.leaf da value) room =
      encodeLeaf dict params ctx da value 253 >>= fun r =>
        if r.1 = [] then .ok ([], r.2)
        else .ok (UInt8.ofNat (dict.attr da) :: UInt8.ofNat (2 + r.1.length) :: r.1, r.2) := by
  unfold encodeChild
  simp only [Nat.min_eq_right hroom]
  rfl

end Encode

section Attribute

variable [DecidableEq Da] {ep : EncodeParams Da V} {dp : DecodeParams Da V} {ec : EncodeCtx}
  {dc : DecodeCtx} {da : Da} {value : Value V} {room : ℕ} (hempty : value.isEmpty = false)

include hempty

theorem encodeRfc_plain (hda : Plain dict da) (vps : List (Pair Da V)) :
    encodeRfc dict ep ec (.leaf da value) vps room =
      encodeChild dict ep ec (.leaf da value) room >>= fun r => .ok (r.1, r.2, vps) := by
  obtain ⟨hleaf, -, num, hchild, hnum, hma, hspecial⟩ := hda
  have hattr := (dict.child hchild).1
  have hother : ∀ {n : UInt8} {da' : Da}, dict.childByNum dict.root n.toNat = some da' → num ≠ n →
      da ≠ da' := by
    intro n da' hn hne heq
    have hattr' := (dict.child hn).1
    rw [← heq, hattr] at hattr'
    exact hne (UInt8.toNat.inj hattr')
  have hma' : da ≠ dict.attrMessageAuthenticator := hother (n := 80) dict.messageAuthenticator.1 hma
  have hfilter : da ≠ dict.attrNasFilterRule := by
    refine hother (n := 92) dict.nasFilterRule.1 ?_
    rintro rfl
    exact absurd hspecial (by decide)
  have htype : ¬(dict.type da = .tlv ∨ dict.type da = .vsa ∨ dict.type da = .vendor) := by
    rintro (h | h | h) <;> rw [h] at hleaf <;> exact absurd hleaf (by decide)
  have hstandard : ¬(dict.attr da = 0 ∨ 255 < dict.attr da) := by
    have hlt := num.toNat_lt
    rw [hattr]
    rintro (h | h)
    · exact hnum (UInt8.toNat.inj h)
    · omega
  unfold encodeRfc
  simp only [Pair.da, if_neg htype, if_neg hstandard, hempty, Bool.false_eq_true, and_false, if_false,
    hma', hfilter]
  rfl

variable (hconcat : ∀ s, value = .octets s →
  (dict.flags da).encrypt ≠ .none ∨ (dict.flags da).concat = false)

include hconcat

theorem encodeUntagged_plain (hda : Plain dict da) (vps : List (Pair Da V)) :
    encodeUntagged dict ep ec (.leaf da value :: vps) room =
      encodeChild dict ep ec (.leaf da value) room >>= fun r => .ok (r.1, r.2, vps) := by
  have hrfc : encodeRfc dict ep ec (.leaf da value) vps room = _ := encodeRfc_plain hempty hda vps
  unfold encodeUntagged
  simp only [hempty, Bool.false_eq_true, false_and, if_false]
  split
  · exact hrfc
  next hencrypt =>
  split
  · next s =>
    rcases hconcat s rfl with h | h
    · exact absurd h hencrypt
    · simp only [h, Bool.false_eq_true, if_false]
      exact hrfc
  · exact hrfc

variable (ep ec room) in
theorem frRadiusEncodePair_tagged (hda : Plain dict da) (htag : tag < 0x20)
    (vps : List (Pair Da V)) :
    ∃ f : EncodeCtx → EncodeCtx,
      frRadiusEncodePair dict ep { ec with tag := 0 } (tagged dict tag (.leaf da value) :: vps) room =
        encodeChild dict ep { ec with tag := tag } (.leaf da value) room >>= fun r =>
          .ok (r.1, f r.2, vps) := by
  by_cases hzero : tag = 0
  · subst hzero
    exact ⟨id, encodeUntagged_plain hempty hconcat hda vps⟩
  obtain ⟨htype, hinternal, hattr⟩ := dict.tagGroups tag.toNat
  have hpos : 0 < tag.toNat := Nat.pos_of_ne_zero fun h => hzero (UInt8.toNat.inj h)
  have hlt : tag.toNat < 32 := htag
  have hgroup : isTagGroup dict (dict.tagGroup tag.toNat) = true := by
    simp only [isTagGroup, htype, hinternal, hattr, tagBase, decide_true, Bool.true_and,
      Bool.and_eq_true, decide_eq_true_eq]
    omega
  have hnum : UInt8.ofNat (dict.attr (dict.tagGroup tag.toNat) - tagBase) = tag := by
    rw [hattr, tagBase, Nat.add_sub_cancel_left, UInt8.ofNat_toNat]
  refine ⟨fun ctx => { ctx with tag := 0 }, ?_⟩
  unfold frRadiusEncodePair
  simp only [tagged, if_neg hzero, hgroup, if_true, hnum, filter_cons, Pair.da, hda.internal,
    Bool.not_false, filter_nil, length_cons, length_nil, Nat.zero_add, encodePairs, isEmpty_cons,
    Bool.false_eq_true, if_false, encodeUntagged_plain hempty hconcat hda]
  rcases encodeChild dict ep { ec with tag := tag } (.leaf da value) room with e | r
  · rfl
  · simp only [encodeOk_bind]
    rw [append_nil]
    rfl

/-- An attribute of the top level comes back if its value does. -/
theorem attributeRoundTrips_iff (hda : Plain dict da) (htag : tag < 0x20) (hroom : 255 ≤ room) :
    AttributeRoundTrips dict ep dp ec dc tag da value room ↔
      RoundTrips dict ep dp { ec with tag := tag } dc tag da value 253 := by
  obtain ⟨num, hchild, hnum, hma, hspecial⟩ := hda.num
  have hattr : UInt8.ofNat (dict.attr da) = num := by
    rw [(dict.child hchild).1, UInt8.ofNat_toNat]
  constructor
  · intro h
    obtain ⟨f, hf⟩ := frRadiusEncodePair_tagged ep ec room hempty hconcat hda htag []
    obtain ⟨out, ec', hencode, hdecode⟩ := h []
    rw [hf, encodeChild_leaf hroom] at hencode
    obtain ⟨r, hr, hout⟩ := encodeOk_of_bind hencode
    obtain ⟨⟨bytes, ctx⟩, hbytes, hheader⟩ := encodeOk_of_bind hr
    split at hheader
    · cases hheader
      cases hout
      exact absurd (congrArg Prod.fst (hdecode [] ⟨[], []⟩)) (by simp [frRadiusDecodePair])
    next hne =>
    cases hheader
    cases hout
    refine ⟨bytes, ctx, hbytes, hne, fun rest s => ?_⟩
    have hpair := hdecode rest s
    rw [hattr, frRadiusDecodePair_plain hchild hspecial hne (encodeLeaf_le hbytes)] at hpair
    obtain ⟨hret, hlists⟩ := Prod.mk.inj hpair
    obtain ⟨ret, hvalue, hlen⟩ := Option.map_eq_some_iff.mp hret
    rw [Prod.ext_iff]
    refine ⟨hvalue.trans (congrArg some ?_), hlists⟩
    simp only [length_cons] at hlen
    omega
  · rintro ⟨bytes, ctx, hbytes, hne, hdecode⟩ vps
    obtain ⟨f, hf⟩ := frRadiusEncodePair_tagged ep ec room hempty hconcat hda htag vps
    refine ⟨num :: UInt8.ofNat (2 + bytes.length) :: bytes, f ctx, ?_, fun rest s => ?_⟩
    · rw [hf, encodeChild_leaf hroom, hbytes]
      simp only [encodeOk_bind, if_neg hne, hattr]
    · rw [frRadiusDecodePair_plain hchild hspecial hne (encodeLeaf_le hbytes), hdecode]
      simp only [Prod.map_apply, Option.map_some, id, length_cons]
      rw [Nat.add_comm 2]

theorem survives_iff {need : ℕ} (htag : tag < 0x20) (hneed : need ≤ 253) :
    Survives dict ep dp ec dc tag da value need ↔ ∀ room, need ≤ room → room ≤ 253 →
      RoundTrips dict ep dp { ec with tag := tag } dc tag da value room := by
  refine ⟨Survives.nested, fun h => ⟨h, fun hda room hroom => ?_⟩⟩
  exact (attributeRoundTrips_iff hempty hconcat hda htag hroom).mpr (h 253 hneed le_rfl)

end Attribute

section Octets

/-- An attribute that holds these octets as they are. -/
structure OctetsDa (dict : Dict Da) (da : Da) (s : List UInt8) : Prop where
  type : dict.type da = .octets
  length : (dict.flags da).length = 0 ∨ (dict.flags da).length = s.length
  hasTag : (dict.flags da).hasTag = false
  encrypt : (dict.flags da).encrypt = .none

variable {ep : EncodeParams Da V} {dp : DecodeParams Da V} {ec : EncodeCtx} {dc : DecodeCtx}
  {da : Da} {s : List UInt8} {room : ℕ}

theorem OctetsDa.encodeLeaf (h : OctetsDa dict da s) (hs : s ≠ []) (hroom : s.length ≤ room) :
    encodeLeaf dict ep ec da (.octets s) room = .ok (s, ec) := by
  have hbytes : valueToNetwork ep (dict.flags da) (.octets s) room = .ok s := by
    rw [valueToNetwork, fixLength_eq h.length]
    exact write_of_le hroom
  have hencrypt : encryptValue ep ec (dict.flags da) s room = .ok (some ⟨s, 0, ec⟩) := by
    rw [encryptValue, h.encrypt]
  exact encodeLeaf_eq rfl (Nat.zero_le _) hbytes hs hencrypt rfl

variable [DecidableEq Da]

theorem OctetsDa.decodeLeafValue (h : OctetsDa dict da s) (st : Lists Da V) :
    decodeLeafValue dict dp dc da s st = (some s.length, st.append (.leaf da (.octets s))) := by
  have hsplit : splitTag (dict.flags da) (dict.type da) s = some (0, s) :=
    if_pos (by rw [h.hasTag]; rfl)
  have hdecrypt : decryptValue dp dc (dict.flags da) s.length s = some s := by
    rw [decryptValue, h.encrypt]
  have hvalue : decodeLeaf dict dp da s = some (.octets s) := by
    have hlength : ¬((dict.flags da).length ≠ 0 ∧ s.length ≠ (dict.flags da).length) := by
      rcases h.length with h | h <;> rw [h] <;> simp
    simp only [decodeLeaf, h.type, if_neg hlength, variableFromNetwork_eq h.length, Option.map_some]
  exact decodeLeafValue_eq hsplit hdecrypt hvalue st

end Octets

section Nested

/-- The attribute and the value, if the pair is not a group. -/
def Pair.leaf? : Pair Da V → Option (Da × Value V)
  | .leaf da value => some (da, value)
  | .group _ _ => none

theorem encodeEach_singleton
    {encode : EncodeCtx → Pair Da V → ℕ → Except EncodeError (List UInt8 × EncodeCtx)}
    {ctx : EncodeCtx} {bytes : List UInt8} {room : ℕ} (h : encode ctx vp room = .ok (bytes, ctx')) :
    encodeEach encode ctx [vp] room = .ok (bytes, ctx') := by
  unfold encodeEach
  simp only [length_singleton, encodePairs, isEmpty_cons, Bool.false_eq_true, if_false, h,
    encodeOk_bind]
  exact congrArg (fun b => Except.ok (b, ctx')) (append_nil bytes)

variable [DecidableEq Da]

/-- The lists with one more pair, in the groups of the attributes above it. -/
def Lists.nest (s : Lists Da V) (path : List Da) (vp : Pair Da V) : Lists Da V :=
  { s with out := appendNested path vp s.out }

theorem inGroup_nest {da : Da} {path : List Da} {n : ℕ} {decode : Lists Da V → Decoded Da V}
    (h : ∀ s, decode s = (some n, s.nest path vp)) (s : Lists Da V) :
    inGroup da decode s = (some n, s.nest (da :: path) vp) := by
  unfold inGroup
  simp only [h]
  rfl

/-- The leaves in the group at the end of a path. -/
def leavesAt : List Da → List (Pair Da V) → List (Da × Value V)
  | [], vps => vps.filterMap Pair.leaf?
  | da :: path, vps => leavesAt path (findGroup da vps).2.1

theorem findGroup_replace (da da' : Da) (children vps : List (Pair Da V)) :
    (findGroup da' ((findGroup da vps).1 ++ .group da children :: (findGroup da vps).2.2)).2.1 =
      if da' = da then children else (findGroup da' vps).2.1 := by
  induction vps with
  | nil =>
    by_cases h : da' = da
    · simp [findGroup, h]
    · simp [findGroup, h, Ne.symm h]
  | cons vp vps ih =>
    rcases vp with ⟨d, v⟩ | ⟨d, vs⟩
    · exact ih
    by_cases hd : d = da
    · subst hd
      by_cases h : da' = d
      · simp [findGroup, h]
      · simp [findGroup, h, Ne.symm h]
    · by_cases hd' : d = da'
      · subst hd'
        simp [findGroup, hd]
      · simp only [findGroup, hd, hd', if_false, cons_append]
        exact ih

theorem filterMap_replace (da : Da) (children vps : List (Pair Da V)) :
    ((findGroup da vps).1 ++ .group da children :: (findGroup da vps).2.2).filterMap Pair.leaf? =
      vps.filterMap Pair.leaf? := by
  induction vps with
  | nil => rfl
  | cons vp vps ih =>
    cases vp with
    | leaf d v =>
      simp only [findGroup, cons_append, filterMap_cons, Pair.leaf?, ih]
    | group d vs =>
      by_cases hd : d = da
      · simp only [findGroup, hd, if_true, nil_append, filterMap_cons, Pair.leaf?]
      · simp only [findGroup, hd, if_false, cons_append, filterMap_cons, Pair.leaf?, ih]

theorem findGroup_append_leaf (da d : Da) (v : Value V) (vps : List (Pair Da V)) :
    (findGroup da (vps ++ [.leaf d v])).2.1 = (findGroup da vps).2.1 := by
  induction vps with
  | nil => rfl
  | cons vp vps ih =>
    cases vp with
    | leaf d' v' => exact ih
    | group d' vs =>
      by_cases hd : d' = da
      · simp [findGroup, hd]
      · simp only [cons_append, findGroup, hd, if_false]
        exact ih

/-- A leaf is behind the other ones of its group, and nowhere else. -/
theorem leavesAt_appendNested (path path' : List Da) (d : Da) (v : Value V)
    (vps : List (Pair Da V)) :
    leavesAt path' (appendNested path (.leaf d v) vps) =
      leavesAt path' vps ++ if path = path' then [(d, v)] else [] := by
  induction path generalizing path' vps with
  | nil =>
    cases path' with
    | nil => simp [appendNested, leavesAt, Pair.leaf?]
    | cons da' path' => simp [appendNested, leavesAt, findGroup_append_leaf]
  | cons da path ih =>
    cases path' with
    | nil =>
      rw [appendNested, leavesAt, filterMap_replace, if_neg (cons_ne_nil _ _), append_nil]
      rfl
    | cons da' path' =>
      by_cases h : da' = da
      · simp [appendNested, leavesAt, findGroup_replace, h, ih]
      · simp [appendNested, leavesAt, findGroup_replace, h, Ne.symm h]

end Nested

section UserPassword

variable {params : DecodeParams Da V} {ctx : DecodeCtx}

theorem withoutZeros_append_zeros (hs : s ≠ []) (hlast : s.getLast hs ≠ 0) (k : ℕ)
    (b : List UInt8) : withoutZeros (s ++ (replicate k 0 ++ b)) (s.length + k) = s.length := by
  induction k generalizing b with
  | zero =>
    obtain ⟨n, hn⟩ : ∃ n, s.length = n + 1 :=
      ⟨_, (Nat.sub_add_cancel (length_pos_iff.mpr hs)).symm⟩
    have hbyte : byte (s ++ ([] ++ b)) n = s.getLast hs := by
      rw [byte, getD_eq_getElem?_getD, getElem?_append_left (by omega), getLast_eq_getElem,
        getElem?_eq_getElem (by omega), Option.getD_some]
      congr 1
      omega
    rw [Nat.add_zero, hn, replicate_zero, withoutZeros, hbyte, if_neg hlast]
  | succ k ih =>
    have hbyte : byte (s ++ (replicate (k + 1) 0 ++ b)) (s.length + k) = 0 := by
      rw [byte, getD_eq_getElem?_getD, getElem?_append_right (by omega), Nat.add_sub_cancel_left,
        getElem?_append_left (by simp), getElem?_replicate, if_pos (Nat.lt_succ_self k),
        Option.getD_some]
    rw [← Nat.add_assoc, withoutZeros, hbyte, if_pos rfl, replicate_succ', append_assoc]
    exact ih ([0] ++ b)

/-- The buffer after decryption: the password and its zeros, whatever else. -/
theorem decryptValue_userPassword {flags : Flags} {vector : Digest}
    (hflags : flags.encrypt = .userPassword) (hvector : ctx.requestAuthenticator = some vector)
    (hs : s.length ≤ 240) :
    ∃ b, decryptValue params ctx flags (paddedLength s.length)
        (encodePassword params.md5 ctx.secret vector s) =
      some ((s ++ (replicate (paddedLength s.length - s.length) 0 ++ b)).take
        (if flags.length ≠ 0 then min (paddedLength s.length) flags.length
        else withoutZeros (s ++ (replicate (paddedLength s.length - s.length) 0 ++ b))
          (paddedLength s.length))) := by
  have hmax : s.length ≤ radiusMaxPassLength := hs.trans (by decide)
  have hpad : paddedLength s.length ≤ 240 := paddedLength_le (m := 15) hs (by decide)
  have hlen := length_encodePassword params.md5 ctx.secret vector hmax
  have hset : ∀ (i : ℕ) (b : List UInt8), paddedLength s.length ≤ i →
      (padPassword s ++ b).set i 0 = padPassword s ++ b.set (i - paddedLength s.length) 0 := by
    intro i b hi
    rw [set_append_right _ _ (by rw [length_padPassword]; exact hi), length_padPassword]
  obtain ⟨b, hb⟩ : ∃ b, (frRadiusDecodePassword params.md5 ctx.secret vector
      (bufferOf (encodePassword params.md5 ctx.secret vector s)) (paddedLength s.length)).set 253 0 =
        padPassword s ++ b := by
    rw [bufferOf, frRadiusDecodePassword_encodePassword _ _ _ hmax, hset _ _ le_rfl,
      hset _ _ (by omega)]
    exact ⟨_, rfl⟩
  refine ⟨b, ?_⟩
  have hshort : ¬253 < paddedLength s.length := by omega
  rw [padPassword, append_assoc] at hb
  unfold decryptValue
  simp only [hflags, if_neg hshort, hvector, hb, hlen]

/-- The values that an attribute with `encrypt=User-Password` may have: strings, and octets of
the length that the dictionary gives. -/
inductive Password (dict : Dict Da) (da : Da) (s : List UInt8) : Value V → Prop where
  | string (htype : dict.type da = .string) (habinary : (dict.flags da).abinary = false)
    (hlength : (dict.flags da).length = 0) (hlast : s.getLast? ≠ some 0) :
    Password dict da s (.string s)
  | octets (htype : dict.type da = .octets) (hlength : (dict.flags da).length = s.length) :
    Password dict da s (.octets s)

variable {ep : EncodeParams Da V} {dp : DecodeParams Da V} {ec : EncodeCtx} {dc : DecodeCtx}
  {da : Da} {s : List UInt8} {value : Value V} {room : ℕ}

theorem Password.valueToNetwork (h : Password dict da s value) (hs : s ≠ [])
    (hroom : s.length ≤ room) : valueToNetwork ep (dict.flags da) value room = .ok s := by
  have hpos : s.length ≠ 0 := fun h => hs (eq_nil_of_length_eq_zero h)
  cases h with
  | string htype habinary hlength hlast =>
    simp only [Radius.valueToNetwork, habinary, Bool.false_eq_true, hlength, fixLength, if_true, if_false]
    exact write_of_le hroom
  | octets htype hlength =>
    simp only [Radius.valueToNetwork, hlength, fixLength, if_neg hpos, Nat.lt_irrefl, if_false,
      take_length]
    exact write_of_le hroom

/-- The zeros behind the password are taken off again. -/
theorem Password.decryptValue (h : Password dict da s value) (hs : s ≠ []) (hmax : s.length ≤ 240)
    (hencrypt : (dict.flags da).encrypt = .userPassword) (hagree : Agree ep dp ec dc) :
    decryptValue dp dc (dict.flags da) (paddedLength s.length)
      (encodePassword ep.md5 ec.secret ec.requestAuthenticator s) = some s := by
  have hle := le_paddedLength s.length
  have hpos : s.length ≠ 0 := fun h => hs (eq_nil_of_length_eq_zero h)
  rw [← hagree.md5, ← hagree.secret]
  obtain ⟨b, hb⟩ := decryptValue_userPassword hencrypt hagree.vector hmax
  rw [hb]
  cases h with
  | string htype habinary hlength hlast =>
    have hlast' : s.getLast hs ≠ 0 := fun h => hlast (by rw [getLast?_eq_some_getLast hs, h])
    have hzeros := withoutZeros_append_zeros hs hlast' (paddedLength s.length - s.length) b
    rw [Nat.add_sub_cancel' hle] at hzeros
    simp only [hlength, ne_eq, not_true, if_false, hzeros, take_left]
  | octets htype hlength =>
    simp only [hlength, ne_eq, hpos, not_false_eq_true, if_true, Nat.min_eq_right hle, take_left]

theorem Password.decodeLeaf (h : Password dict da s value) :
    decodeLeaf dict dp da s = some value := by
  cases h with
  | string htype habinary hlength hlast =>
    simp [Radius.decodeLeaf, htype, habinary, hlength, variableFromNetwork]
  | octets htype hlength => simp [Radius.decodeLeaf, htype, hlength, variableFromNetwork]

theorem Password.roundTrips [DecidableEq Da] (h : Password dict da s value) (hs : s ≠ [])
    (hmax : s.length ≤ 240) (hencrypt : (dict.flags da).encrypt = .userPassword)
    (htag : (dict.flags da).hasTag = false) (hagree : Agree ep dp ec dc) (hroom : 240 ≤ room) :
    RoundTrips dict ep dp ec dc 0 da value room := by
  obtain ⟨cipher, hcipher⟩ : ∃ cipher, encodePassword ep.md5 ec.secret ec.requestAuthenticator s =
    cipher := ⟨_, rfl⟩
  have hlen : cipher.length = paddedLength s.length := by
    rw [← hcipher]
    exact length_encodePassword _ _ _ (hmax.trans (by decide : 240 ≤ radiusMaxPassLength))
  have hpad : paddedLength s.length ≤ 240 := paddedLength_le (m := 15) hmax (by decide)
  have hnonempty : cipher ≠ [] := by
    rintro rfl
    exact absurd hlen (paddedLength_pos s.length).ne
  have hencoded : encryptValue ep ec (dict.flags da) s room =
      .ok (some ⟨cipher, s.length, ec⟩) := by
    have hwrite : write room cipher = .ok cipher := write_of_le (by omega)
    simp only [encryptValue, hencrypt, hcipher, hwrite, encodeOk_bind]
    rfl
  have hnone : tagBytes ec.tag (dict.flags da) value = [] := by
    cases h <;> simp [tagBytes, htag]
  have hout : tagInteger (dict.flags da) value ⟨cipher, s.length, ec⟩ = some cipher := by
    cases h <;> rfl
  refine ⟨cipher, ec, ?_, hnonempty, fun rest st => ?_⟩
  · exact encodeLeaf_eq hnone (Nat.zero_le _) (h.valueToNetwork hs (hmax.trans hroom)) hs hencoded hout
  have hleaf : (dict.type da).isLeaf = true := by
    cases h <;> rw [‹dict.type da = _›] <;> rfl
  have hsplit : splitTag (dict.flags da) (dict.type da) cipher = some (0, cipher) :=
    if_pos (by rw [htag]; rfl)
  have hplain := h.decryptValue hs hmax hencrypt hagree
  rw [hcipher, ← hlen] at hplain
  rw [frRadiusDecodePairValue_leaf hleaf hnonempty (by omega),
    decodeLeafValue_eq hsplit hplain h.decodeLeaf]

/-- A string of up to 240 bytes that does not end with a zero, or any octets of a fixed
length, are the same after they have been encrypted as a User-Password. -/
theorem userPassword_survives [DecidableEq Da] (hagree : Agree ep dp ec dc)
    (hencrypt : (dict.flags da).encrypt = .userPassword) (htag : (dict.flags da).hasTag = false)
    (hvalue : Password dict da s value) (hs : 1 ≤ s.length ∧ s.length ≤ 240) :
    Survives dict ep dp ec dc 0 da value 240 := by
  have hne : s ≠ [] := length_pos_iff.mp hs.1
  have hempty : value.isEmpty = false := by
    cases hvalue <;> exact decide_eq_false hne
  have hconcat : ∀ t, value = .octets t →
      (dict.flags da).encrypt ≠ .none ∨ (dict.flags da).concat = false := by
    intro t _
    exact .inl (by rw [hencrypt]; decide)
  refine (survives_iff hempty hconcat (by decide) (by decide)).mpr fun room hroom _ => ?_
  exact hvalue.roundTrips hne hs.2 hencrypt htag ⟨hagree.md5, hagree.secret, hagree.vector⟩ hroom

/-- "hello" as the User-Password of a request. -/
theorem userPassword_survives_hello :
    Survives Dict.sample EncodeParams.sample DecodeParams.sample EncodeCtx.sample DecodeCtx.sample 0
      (.child .root 2) (.string [104, 101, 108, 108, 111] : Value Empty) 240 :=
  userPassword_survives ⟨rfl, rfl, rfl⟩ rfl rfl (.string rfl rfl rfl (by decide)) (by decide)

end UserPassword

end FreeRadius.Radius
