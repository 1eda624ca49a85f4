import FreeRadius.Radius.Password

/-!
# The dictionary and the pairs

What the encoder and the decoder of RADIUS attributes know about the dictionary, and
the lists of pairs between which they translate. The attributes of the dictionary are
an arbitrary type.
-/

namespace FreeRadius.Radius

open Library

/-- `fr_type_t`, as far as the codec tells the types apart. -/
inductive DataType where
  | string
  | octets
  | uint32
  /-- any other leaf type -/
  | leaf (n : ℕ)
  | tlv
  | struct
  | group
  | vsa
  | vendor
  deriving DecidableEq, Repr

/-- `FR_TYPE_LEAF` -/
def DataType.isLeaf : DataType → Bool
  | string | octets | uint32 | leaf _ => true
  | tlv | struct | group | vsa | vendor => false

/-- `fr_radius_attr_flags_encrypt_t` -/
inductive Encrypt where
  | none
  | userPassword
  | tunnelPassword
  | ascendSecret
  deriving DecidableEq, Repr

/-- `fr_radius_attr_flags_t`, and three of the general flags. -/
structure Flags where
  longExtended : Bool := false
  extended : Bool := false
  concat : Bool := false
  hasTag : Bool := false
  abinary : Bool := false
  encrypt : Encrypt := .none
  array : Bool := false
  internal : Bool := false
  /-- `flags.length`, zero if the length may vary -/
  length : ℕ := 0
  deriving DecidableEq, Repr

/-- `fr_radius_flag_extended` -/
def Flags.isExtended (flags : Flags) : Bool := flags.extended || flags.longExtended

/-- `fr_dict_vendor_t` -/
structure FrDictVendor where
  /-- the size of the type field -/
  type : ℕ
  /-- the size of the length field -/
  length : ℕ
  continuation : Bool
  deriving DecidableEq, Repr

def attrVendorSpecificNum : UInt8 := 26
def attrChargeableUserIdentityNum : UInt8 := 89
def attrNasFilterRuleNum : UInt8 := 92
def attrDigestAttributesNum : UInt8 := 207

/-- The dictionary of the protocol. -/
structure Dict (Da : Type) where
  root : Da
  /-- `da->attr` -/
  attr : Da → ℕ
  type : Da → DataType
  flags : Da → Flags
  isUnknown : Da → Bool
  parent : Da → Option Da
  /-- the attributes above this one, from the top level on -/
  path : Da → List Da
  /-- `fr_dict_attr_child_by_num` -/
  childByNum : Da → ℕ → Option Da
  /-- `fr_dict_attr_unknown_raw_afrom_num` -/
  unknownRaw : Da → ℕ → Da
  /-- `fr_dict_attr_unknown_typed_afrom_num` for a TLV -/
  unknownTlv : Da → ℕ → Da
  /-- `fr_dict_attr_unknown_vendor_afrom_num` -/
  unknownVendor : Da → ℕ → Da
  /-- `fr_dict_attr_unknown_raw_afrom_da` -/
  rawOf : Da → Da
  /-- `fr_dict_vendor_by_num` -/
  vendorByNum : ℕ → Option FrDictVendor
  attrVendorSpecific : Da
  attrMessageAuthenticator : Da
  attrChargeableUserIdentity : Da
  attrNasFilterRule : Da
  attrPacketAuthenticationVector : Da
  /-- the group Tag-N -/
  tagGroup : ℕ → Da
  child : ∀ {p n da}, childByNum p n = some da →
    attr da = n ∧ parent da = some p ∧ isUnknown da = false
  path_root : ∀ {n da}, childByNum root n = some da → path da = []
  path_child : ∀ {p n da}, childByNum p n = some da → p ≠ root → path da = path p ++ [p]
  vendorSpecific : childByNum root 26 = some attrVendorSpecific ∧ type attrVendorSpecific = .vsa
  messageAuthenticator : childByNum root 80 = some attrMessageAuthenticator ∧
    type attrMessageAuthenticator = .octets
  chargeableUserIdentity : childByNum root 89 = some attrChargeableUserIdentity ∧
    type attrChargeableUserIdentity = .octets
  nasFilterRule : childByNum root 92 = some attrNasFilterRule ∧ type attrNasFilterRule = .string
  /-- Digest-Attributes is a TLV. -/
  digestAttributes : ∃ da, childByNum root 207 = some da ∧ type da = .tlv
  tagGroups : ∀ n, type (tagGroup n) = .group ∧ (flags (tagGroup n)).internal = true ∧
    attr (tagGroup n) = 1100 + n
  /-- The root is the parent of top-level attributes only, and has no flags. -/
  root_flags : flags root = {}
  /-- No structural attribute of the dictionaries has a tag or is encrypted. -/
  structural : ∀ da, (type da).isLeaf = false →
    (flags da).encrypt = .none ∧ (flags da).hasTag = false
  unknownRaw_type : ∀ p n, type (unknownRaw p n) = .octets ∧ flags (unknownRaw p n) = {}
  unknownTlv_type : ∀ p n, type (unknownTlv p n) = .tlv
  unknownVendor_type : ∀ p n, type (unknownVendor p n) = .vendor
  rawOf_type : ∀ da, type (rawOf da) = .octets ∧ (flags (rawOf da)).length = 0
  /-- An unknown attribute that holds a value holds any octets. -/
  unknown : ∀ da, isUnknown da = true → (type da).isLeaf = true →
    type da = .octets ∧ (flags da).length = 0

/-- The value of a leaf; `V` are the values of the types that only the common functions
know. -/
inductive Value (V : Type) where
  | string (s : List UInt8)
  | octets (s : List UInt8)
  | uint32 (n : UInt32)
  | other (v : V)
  deriving DecidableEq, Repr

/-- `fr_pair_t` -/
inductive Pair (Da V : Type) where
  | leaf (da : Da) (value : Value V)
  | group (da : Da) (children : List (Pair Da V))

def Pair.da {Da V : Type} : Pair Da V → Da
  | leaf da _ => da
  | group da _ => da

/-- The attributes of a small dictionary. -/
inductive SampleDa where
  | root
  | child (parent : SampleDa) (num : ℕ)
  | unknownRaw (parent : SampleDa) (num : ℕ)
  | unknownTlv (parent : SampleDa) (num : ℕ)
  | unknownVendor (parent : SampleDa) (num : ℕ)
  | rawOf (da : SampleDa)
  | tagGroup (num : ℕ)
  | packetAuthenticationVector
  deriving DecidableEq, Repr

namespace SampleDa

def attr : SampleDa → ℕ
  | child _ num | unknownRaw _ num | unknownTlv _ num | unknownVendor _ num => num
  | rawOf da => da.attr
  | tagGroup num => 1100 + num
  | root | packetAuthenticationVector => 0

def parent : SampleDa → Option SampleDa
  | child p _ | unknownRaw p _ | unknownTlv p _ | unknownVendor p _ => some p
  | rawOf da => da.parent
  | root => none
  | tagGroup _ | packetAuthenticationVector => some root

def path : SampleDa → List SampleDa
  | child p _ => if p = root then [] else p.path ++ [p]
  | _ => []

def isUnknown : SampleDa → Bool
  | unknownRaw _ _ | unknownTlv _ _ | unknownVendor _ _ | rawOf _ => true
  | root | child _ _ | tagGroup _ | packetAuthenticationVector => false

/-- User-Password, Tunnel-Password, Tunnel-Assignment-Id, NAS-Filter-Rule, Tunnel-Type,
Vendor-Specific, Digest-Attributes, and one extended attribute that has vendors, too. -/
def type : SampleDa → DataType
  | child root num =>
    if num ∈ [2, 69, 82, 92] then .string
    else if num = 64 then .uint32
    else if num = 26 then .vsa
    else if num ∈ [207, 245] then .tlv
    else .octets
  | child (child root 26) _ => .vendor
  | child (child root 245) 26 => .vsa
  | child (child (child root 245) 26) _ => .vendor
  | root | unknownTlv _ _ => .tlv
  | unknownVendor _ _ => .vendor
  | tagGroup _ => .group
  | child _ _ | unknownRaw _ _ | rawOf _ | packetAuthenticationVector => .octets

def flags : SampleDa → Flags
  | child root num =>
    if num = 2 then { encrypt := .userPassword }
    else if num = 69 then { hasTag := true, encrypt := .tunnelPassword }
    else if num ∈ [64, 82] then { hasTag := true }
    else if num = 79 then { concat := true }
    else if num = 245 then { longExtended := true }
    else {}
  | tagGroup _ | packetAuthenticationVector => { internal := true }
  | _ => {}

def childByNum : SampleDa → ℕ → Option SampleDa
  | root, num =>
    if num ∈ [2, 26, 64, 69, 79, 80, 82, 89, 92, 207, 245] then some (child root num) else none
  | child (child root 26) 24757, num =>
    if num < 256 then some (child (child (child root 26) 24757) num) else none
  | child root 26, num => if num = 24757 then some (child (child root 26) num) else none
  | child root 245, num => if num ∈ [1, 26] then some (child (child root 245) num) else none
  | child (child root 245) 26, num =>
    if num = 24757 then some (child (child (child root 245) 26) num) else none
  | child (child (child root 245) 26) 24757, num =>
    if num < 256 then some (child (child (child (child root 245) 26) 24757) num) else none
  | _, _ => none

theorem childByNum_eq {p da : SampleDa} {num : ℕ} (h : p.childByNum num = some da) :
    da = child p num := by
  unfold childByNum at h
  split at h <;> first
    | (split at h
       · exact (Option.some.inj h).symm
       · cases h)
    | cases h

end SampleDa

/-- A dictionary in which only some attributes are known. -/
def Dict.sample : Dict SampleDa where
  root := .root
  attr := SampleDa.attr
  type := SampleDa.type
  flags := SampleDa.flags
  isUnknown := SampleDa.isUnknown
  parent := SampleDa.parent
  path := SampleDa.path
  childByNum := SampleDa.childByNum
  unknownRaw := .unknownRaw
  unknownTlv := .unknownTlv
  unknownVendor := .unknownVendor
  rawOf := .rawOf
  vendorByNum num := if num = 24757 then some ⟨1, 1, true⟩ else none
  attrVendorSpecific := .child .root 26
  attrMessageAuthenticator := .child .root 80
  attrChargeableUserIdentity := .child .root 89
  attrNasFilterRule := .child .root 92
  attrPacketAuthenticationVector := .packetAuthenticationVector
  tagGroup := .tagGroup
  child h := by rw [SampleDa.childByNum_eq h]; exact ⟨rfl, rfl, rfl⟩
  path_root h := by rw [SampleDa.childByNum_eq h]; rfl
  path_child h hp := by rw [SampleDa.childByNum_eq h]; exact if_neg hp
  vendorSpecific := ⟨rfl, rfl⟩
  messageAuthenticator := ⟨rfl, rfl⟩
  chargeableUserIdentity := ⟨rfl, rfl⟩
  nasFilterRule := ⟨rfl, rfl⟩
  digestAttributes := ⟨.child .root 207, rfl, rfl⟩
  tagGroups _ := ⟨rfl, rfl, rfl⟩
  root_flags := rfl
  structural da h := by
    unfold SampleDa.flags
    split
    · next num =>
      split_ifs with hnum hnum hnum
      · subst hnum
        exact absurd h (by decide)
      · subst hnum
        exact absurd h (by decide)
      · rcases List.mem_pair.mp hnum with rfl | rfl <;> exact absurd h (by decide)
      all_goals exact ⟨rfl, rfl⟩
    · exact ⟨rfl, rfl⟩
    · exact ⟨rfl, rfl⟩
    · exact ⟨rfl, rfl⟩
  unknownRaw_type _ _ := ⟨rfl, rfl⟩
  unknownTlv_type _ _ := rfl
  unknownVendor_type _ _ := rfl
  rawOf_type _ := ⟨rfl, rfl⟩
  unknown da h hleaf := by
    cases da <;> first
      | exact ⟨rfl, rfl⟩
      | exact absurd hleaf Bool.false_ne_true
      | exact absurd h Bool.false_ne_true

end FreeRadius.Radius
