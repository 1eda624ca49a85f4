import FreeRadius.Radius.FilterRules
import FreeRadius.Radius.Signed

/-!
# Signing what was encoded

The packets of `fr_radius_encode` can be signed, and are verified then, unless the search for
their Message-Authenticator comes to an attribute that it does not take, or they are a
Protocol-Error that has a Message-Authenticator.
-/

namespace FreeRadius.Radius

open Library List

variable {met : Met} {value bytes : List UInt8} {rounds attr : ℕ}

section Scans

/-- What the search for a Message-Authenticator meets first. -/
inductive Met where
  | nothing
  | messageAuthenticator
  /-- a Message-Authenticator that is too small, or an attribute that has no length -/
  | malformed
  deriving DecidableEq, Repr

/-- The search goes on if it has met nothing. -/
def Met.andThen : Met → Met → Met
  | nothing, met => met
  | messageAuthenticator, _ => messageAuthenticator
  | malformed, _ => malformed

theorem Met.andThen_nothing (met : Met) : met.andThen .nothing = met := by
  cases met <;> rfl

/-- The bytes are attributes, as far as the search reads them. -/
inductive Scans : List UInt8 → Met → Prop where
  | nil : Scans [] .nothing
  | attr {type : UInt8} {value rest : List UInt8} {met : Met} :
    type ≠ attrMessageAuthenticator → value.length ≤ 253 → Scans rest met →
      Scans (frame type value ++ rest) met
  | found {value rest : List UInt8} :
    16 ≤ value.length → value.length ≤ 253 →
      Scans (frame attrMessageAuthenticator value ++ rest) .messageAuthenticator
  | tooSmall {value rest : List UInt8} :
    value.length < 16 → Scans (frame attrMessageAuthenticator value ++ rest) .malformed
  | noLength {type : UInt8} {rest : List UInt8} :
    type ≠ attrMessageAuthenticator → Scans (type :: 0 :: rest) .malformed

theorem Scans.append {a b : List UInt8} {met' : Met} (ha : Scans a met) (hb : Scans b met') :
    Scans (a ++ b) (met.andThen met') := by
  induction ha with
  | nil => exact hb
  | attr htype hlen _ ih =>
    rw [append_assoc]
    exact .attr htype hlen ih
  | found hmin hmax =>
    rw [append_assoc]
    exact .found hmin hmax
  | tooSmall hlen =>
    rw [append_assoc]
    exact .tooSmall hlen
  | noLength htype => exact .noLength htype

theorem scans_frame {type : UInt8} (htype : type ≠ attrMessageAuthenticator)
    (hlen : value.length ≤ 253) : Scans (frame type value) .nothing := by
  have h := Scans.attr htype hlen .nil
  rwa [append_nil] at h

theorem scans_messageAuthenticator (hlen : value.length ≤ 253) :
    Scans (frame attrMessageAuthenticator value)
      (if value.length < 16 then .malformed else .messageAuthenticator) := by
  rw [← append_nil (frame attrMessageAuthenticator value)]
  split
  · next hshort => exact .tooSmall hshort
  · next hlong => exact .found (Nat.not_lt.mp hlong) hlen

/-- The result of the search. -/
def Met.Outcome (stop : ℕ) (result : Except ScanError (Option ℕ × Bool)) : Met → Prop
  | nothing => ∃ p, result = .ok (none, p)
  | messageAuthenticator => ∃ msg p, result = .ok (some msg, p) ∧ msg + 18 ≤ stop
  | malformed => ∃ e, result = .error e

/-- One round of the search, at an attribute. -/
theorem find_frame {a packet rest : List UInt8} {type : UInt8} {p : Bool} (hlen : value.length ≤ 253)
    (hpacket : packet = a ++ (frame type value ++ rest)) :
    findMessageAuthenticator packet packet.length (rounds + 1) a.length p =
      if type ≠ attrMessageAuthenticator then
        findMessageAuthenticator packet packet.length rounds (a.length + (2 + value.length))
          (p || type = attrProxyState)
      else if 2 + value.length < 18 then .error .tooSmall
      else .ok (some a.length, p) := by
  have hx : byte packet a.length = type := by simp [hpacket, byte, frame]
  have hy : byte packet (a.length + 1) = UInt8.ofNat (2 + value.length) := by
    simp [hpacket, byte, frame]
  have hwhole : packet.length = a.length + (2 + value.length) + rest.length := by
    simp only [hpacket, length_append, length_frame]
    omega
  have hlow : ¬ 2 + value.length < 2 := by omega
  have hhigh : ¬ packet.length < a.length + (2 + value.length) := by omega
  rw [findMessageAuthenticator, if_neg (by omega), if_neg (by omega), hx, hy, toNat_length hlen]
  dsimp only
  rw [if_neg hlow, if_neg hhigh]

theorem Scans.find (h : Scans bytes met) (a : List UInt8) (hrounds : bytes.length ≤ rounds)
    (p : Bool) :
    met.Outcome (a ++ bytes).length
      (findMessageAuthenticator (a ++ bytes) (a ++ bytes).length rounds a.length p) := by
  induction h generalizing a rounds p with
  | nil =>
    refine ⟨p, ?_⟩
    cases rounds with
    | zero => rfl
    | succ rounds => rw [findMessageAuthenticator, if_pos (by rw [append_nil])]
  | @attr type value rest met htype hlen h ih =>
    rw [length_append, length_frame] at hrounds
    obtain ⟨rounds, rfl⟩ : ∃ k, rounds = k + 1 := ⟨rounds - 1, by omega⟩
    have hnext : a.length + (2 + value.length) = (a ++ frame type value).length := by
      rw [length_append, length_frame]
    rw [find_frame hlen rfl, if_pos htype, hnext, ← append_assoc]
    exact ih (a ++ frame type value) (show rest.length ≤ rounds by omega) _
  | @found value rest hmin hmax =>
    rw [length_append, length_frame] at hrounds
    obtain ⟨rounds, rfl⟩ : ∃ k, rounds = k + 1 := ⟨rounds - 1, by omega⟩
    rw [find_frame hmax rfl, if_neg (by simp), if_neg (by omega)]
    refine ⟨a.length, p, rfl, ?_⟩
    rw [length_append, length_append, length_frame]
    omega
  | @tooSmall value rest hlen =>
    rw [length_append, length_frame] at hrounds
    obtain ⟨rounds, rfl⟩ : ∃ k, rounds = k + 1 := ⟨rounds - 1, by omega⟩
    rw [find_frame (by omega) rfl, if_neg (by simp), if_pos (by omega)]
    exact ⟨_, rfl⟩
  | @noLength type rest htype =>
    obtain ⟨rounds, rfl⟩ : ∃ k, rounds = k + 1 := ⟨rounds - 1, by simp at hrounds; omega⟩
    have hx : byte (a ++ type :: 0 :: rest) a.length = type := by simp [byte]
    have hy : byte (a ++ type :: 0 :: rest) (a.length + 1) = 0 := by simp [byte]
    rw [findMessageAuthenticator, if_neg (by simp), if_neg (by simp), hx, hy, if_pos htype,
      if_pos (by decide)]
    exact ⟨_, rfl⟩

end Scans

section FilterRules

theorem scans_framesTo {attr : UInt8} (hattr : attr ≠ attrMessageAuthenticator) (stuck : Bool)
    {l : List UInt8} {ps : List (List UInt8)} (h : Pieces 253 l ps) :
    Scans (framesTo attr stuck ps) (if stuck then .malformed else .nothing) := by
  induction h with
  | last hne hle =>
    cases stuck with
    | false => exact scans_frame hattr hle
    | true => exact .noLength hattr
  | full ha h ih =>
    rw [framesTo_cons h]
    exact .attr hattr (Nat.le_of_eq ha) ih

theorem scans_encodeNasFilterRule {rules : List (List UInt8)} {room : ℕ}
    (hfirst : ∀ rule rest, rules = rule :: rest → rule ≠ [])
    (h : encodeNasFilterRule rules room = .ok bytes) :
    Scans bytes (if overfull rules then .malformed else .nothing) := by
  rcases rules with _ | ⟨rule, rules⟩
  · cases h
  have hrule := hfirst rule rules rfl
  have hps := pieces_cut (w := 253) (by decide)
    (append_ne_nil_of_left_ne_nil hrule (separated rules))
  rw [encodeNasFilterRule_eq hrule hps] at h
  split at h
  · cases h
  · cases h
    exact scans_framesTo (by decide) _ hps

end FilterRules

variable {Da V : Type} {dict : Dict Da}

/-- A leaf of the top level with a value of its type: it is in the dictionary, or it is not
known, and raw. -/
structure TopLevel (dict : Dict Da) (da : Da) (value : Value V) : Prop where
  leaf : (dict.type da).isLeaf = true
  known : dict.isUnknown da = false → dict.childByNum dict.root (dict.attr da) = some da
  string : dict.type da = .string → ∃ s, value = .string s
  octets : dict.type da = .octets → ∃ s, value = .octets s
  standard : (dict.flags da).concat = true → dict.attr da ≤ 255
  /-- Message-Authenticator has no flags, and a raw attribute has those of the known one. -/
  plain : dict.attr da = 80 →
    (dict.flags da).concat = false ∧ (dict.flags da).hasTag = false ∧ (dict.flags da).encrypt = .none

section Attributes

variable {params : EncodeParams Da V} {ctx ctx' : EncodeCtx} {da : Da} {value : Value V} {room : ℕ}
  {bytes : List UInt8}

theorem scans_encodeConcat (hattr : UInt8.ofNat attr ≠ attrMessageAuthenticator) {data : List UInt8}
    (h : encodeConcat attr rounds data room = .ok bytes) : Scans bytes .nothing := by
  induction rounds generalizing data room bytes with
  | zero =>
    cases h
    exact .nil
  | succ rounds ih =>
    rw [encodeConcat] at h
    split at h
    · cases h
      exact .nil
    obtain ⟨hdr, hwrite, h⟩ := encodeOk_of_bind h
    obtain ⟨rest, hrest, h⟩ := encodeOk_of_bind h
    cases h
    obtain ⟨rfl, -⟩ := write_ok hwrite
    exact .attr hattr (length_take_le _ _) (ih hrest)

theorem encryptValue_seen {flags : Flags} {v : List UInt8} {e : Encrypted}
    (h : encryptValue params ctx flags v room = .ok (some e)) :
    e.ctx.seenMessageAuthenticator = ctx.seenMessageAuthenticator := by
  unfold encryptValue at h
  split at h
  · cases h
    rfl
  · obtain ⟨bytes, -, h⟩ := encodeOk_of_bind h
    cases h
    rfl
  · split at h
    · cases h
    dsimp only at h
    split at h
    · cases h
    · cases h
      rfl
  · obtain ⟨bytes, -, h⟩ := encodeOk_of_bind h
    cases h
    rfl

theorem encodeLeaf_seen (h : encodeLeaf dict params ctx da value room = .ok (bytes, ctx')) :
    ctx'.seenMessageAuthenticator = ctx.seenMessageAuthenticator := by
  unfold encodeLeaf at h
  simp only at h
  split at h
  · cases h
  obtain ⟨v, -, h⟩ := encodeOk_of_bind h
  split at h
  · cases h
    rfl
  obtain ⟨e, he, h⟩ := encodeOk_of_bind h
  split at h
  · cases h
    rfl
  split at h
  · cases h
    exact encryptValue_seen he
  · cases h
    exact encryptValue_seen he

theorem encodeChild_ok (h : encodeChild dict params ctx (.leaf da value) room = .ok (bytes, ctx')) :
    ctx'.seenMessageAuthenticator = ctx.seenMessageAuthenticator ∧
      ∃ v, encodeLeaf dict params ctx da value (min room 255 - 2) = .ok (v, ctx') ∧
        v.length ≤ 253 ∧ bytes = if v = [] then [] else frame (UInt8.ofNat (dict.attr da)) v := by
  unfold encodeChild at h
  simp only at h
  split at h
  · cases h
  obtain ⟨⟨v, ctx''⟩, hv, h⟩ := encodeOk_of_bind h
  have hle := encodeLeaf_le hv
  split at h
  · next hnil =>
    cases h
    exact ⟨encodeLeaf_seen hv, v, hv, by omega, (if_pos hnil).symm⟩
  · next hne =>
    cases h
    exact ⟨encodeLeaf_seen hv, v, hv, by omega, (if_neg hne).symm⟩

theorem eq_of_encodeLeaf_octets {s : List UInt8} (hda : OctetsDa dict da s) (hs : s ≠ [])
    (h : encodeLeaf dict params ctx da (.octets s) room = .ok (bytes, ctx')) : bytes = s := by
  have hroom : s.length ≤ room := by
    unfold encodeLeaf at h
    simp only at h
    split at h
    · cases h
    obtain ⟨v, hv, -⟩ := encodeOk_of_bind h
    rw [valueToNetwork, fixLength_eq hda.length] at hv
    obtain ⟨rfl, hle⟩ := write_ok hv
    exact hle
  have heq := h.symm.trans (hda.encodeLeaf hs hroom)
  injection heq with heq
  exact (Prod.mk.inj heq).1

/-- An attribute that is not known, with the number of Message-Authenticator. -/
theorem eq_of_encodeLeaf_raw (hda : TopLevel dict da value) (hattr : dict.attr da = 80)
    (hne : da ≠ dict.attrMessageAuthenticator) (hnil : value.isEmpty = false)
    (h : encodeLeaf dict params ctx da value room = .ok (bytes, ctx')) :
    bytes ≠ [] ∧ value = .octets bytes := by
  have hunknown : dict.isUnknown da = true := by
    by_contra hknown
    have hchild := hda.known (Bool.not_eq_true _ ▸ hknown)
    rw [hattr, dict.messageAuthenticator.1] at hchild
    exact hne (Option.some.inj hchild).symm
  obtain ⟨htype, hlength⟩ := dict.unknown da hunknown hda.leaf
  obtain ⟨s, rfl⟩ := hda.octets htype
  obtain ⟨-, htag, hencrypt⟩ := hda.plain hattr
  have hs : s ≠ [] := by simpa [Value.isEmpty] using hnil
  obtain rfl : bytes = s := eq_of_encodeLeaf_octets ⟨htype, .inl hlength, htag, hencrypt⟩ hs h
  exact ⟨hs, rfl⟩

end Attributes

section Pairs

/-- The length of octets. -/
def Value.octetsLength : Value V → ℕ
  | .octets s => s.length
  | _ => 0

variable [DecidableEq Da]

variable (dict) in
/-- What the search meets first in the attributes of some pairs. A Message-Authenticator is not
written if there is one, a raw one is written as it is. -/
def meets : ℕ → Bool → List (Pair Da V) → Met
  | 0, _, _ => .nothing
  | _ + 1, _, [] => .nothing
  | rounds + 1, seen, .group _ _ :: vps => meets rounds seen vps
  | rounds + 1, seen, .leaf da value :: vps =>
    if da = dict.attrMessageAuthenticator then
      if seen then meets rounds seen vps else .messageAuthenticator
    else if value.isEmpty then meets rounds seen vps
    else if dict.attr da = 80 then
      if value.octetsLength < 16 then .malformed else .messageAuthenticator
    else if da = dict.attrNasFilterRule then
      let rules := filterRules dict (.leaf da value :: vps)
      if overfull rules.1 then .malformed else meets rounds seen rules.2
    else meets rounds seen vps

theorem filterRules_suffix (vps : List (Pair Da V)) : (filterRules dict vps).2 <:+ vps := by
  induction vps with
  | nil => exact suffix_refl _
  | cons vp vps ih =>
    rw [filterRules]
    split
    · exact suffix_refl _
    · exact ih.trans (suffix_cons _ _)

variable {params : EncodeParams Da V} {ctx ctx' : EncodeCtx} {da : Da} {value : Value V} {room : ℕ}
  {bytes : List UInt8} {vps vps' : List (Pair Da V)}

/-- One call of the encoder, and what the search meets in it. -/
def Step (dict : Dict Da) (ctx ctx' : EncodeCtx) (vp : Pair Da V) (vps vps' : List (Pair Da V))
    (bytes : List UInt8) : Prop :=
  vps' <:+ vps ∧ ∃ met, Scans bytes met ∧ ∀ rounds,
    meets dict (rounds + 1) ctx.seenMessageAuthenticator (vp :: vps) =
      met.andThen (meets dict rounds ctx'.seenMessageAuthenticator vps')

theorem ofNat_ne_messageAuthenticator (hle : attr ≤ 255) (hne : attr ≠ 80) :
    UInt8.ofNat attr ≠ attrMessageAuthenticator := by
  intro h
  have h' := congrArg UInt8.toNat h
  rw [UInt8.toNat_ofNat_of_lt' (show attr < 256 by omega)] at h'
  exact hne h'

omit [DecidableEq Da] in
theorem attr_messageAuthenticator : dict.attr dict.attrMessageAuthenticator = 80 :=
  (dict.child dict.messageAuthenticator.1).1

theorem step_filterRule (hda : TopLevel dict dict.attrNasFilterRule value) (hnil : value.isEmpty = false)
    (hne : dict.attrNasFilterRule ≠ dict.attrMessageAuthenticator)
    (h : encodeNasFilterRule (filterRules dict (.leaf dict.attrNasFilterRule value :: vps)).1 room =
      .ok bytes) :
    Step dict ctx ctx (.leaf dict.attrNasFilterRule value) vps
      (filterRules dict (.leaf dict.attrNasFilterRule value :: vps)).2 bytes := by
  obtain ⟨s, rfl⟩ := hda.string dict.nasFilterRule.2
  have hrules : filterRules dict (.leaf dict.attrNasFilterRule (.string s) :: vps) =
      (s :: (filterRules dict vps).1, (filterRules dict vps).2) := by
    simp [filterRules, filterRule]
  have hattr : dict.attr dict.attrNasFilterRule ≠ 80 := by
    rw [(dict.child dict.nasFilterRule.1).1]
    decide
  rw [hrules] at h ⊢
  refine ⟨filterRules_suffix _, _, scans_encodeNasFilterRule ?_ h, fun rounds => ?_⟩
  · rintro rule rest ⟨⟩
    simpa [Value.isEmpty] using hnil
  · rw [meets, if_neg hne, hnil, if_neg Bool.false_ne_true, if_neg hattr, if_pos rfl, hrules]
    dsimp only
    split <;> rfl

theorem step_encodeChild (hda : TopLevel dict da value) (hle : dict.attr da ≤ 255)
    (hnil : value.isEmpty = false) (hne : da ≠ dict.attrMessageAuthenticator)
    (hrule : da ≠ dict.attrNasFilterRule)
    (h : encodeChild dict params ctx (.leaf da value) room = .ok (bytes, ctx')) :
    Step dict ctx ctx' (.leaf da value) vps vps bytes := by
  obtain ⟨hseen, v, hv, hlen, rfl⟩ := encodeChild_ok h
  refine ⟨suffix_refl _, ?_⟩
  by_cases hattr : dict.attr da = 80
  · obtain ⟨hs, rfl⟩ := eq_of_encodeLeaf_raw hda hattr hne hnil hv
    rw [if_neg hs, hattr]
    refine ⟨_, scans_messageAuthenticator hlen, fun rounds => ?_⟩
    rw [meets, if_neg hne, hnil, if_neg Bool.false_ne_true, if_pos hattr]
    change (if v.length < 16 then Met.malformed else .messageAuthenticator) = _
    split <;> rfl
  · refine ⟨.nothing, ?_, fun rounds => ?_⟩
    · split
      · exact .nil
      · exact scans_frame (ofNat_ne_messageAuthenticator hle hattr) hlen
    · rw [meets, if_neg hne, hnil, if_neg Bool.false_ne_true, if_neg hattr, if_neg hrule, hseen]
      rfl

theorem step_encodeRfc (hda : TopLevel dict da value)
    (hempty : value.isEmpty = true → da = dict.attrChargeableUserIdentity ∨
      da = dict.attrMessageAuthenticator)
    (h : encodeRfc dict params ctx (.leaf da value) vps room = .ok (bytes, ctx', vps')) :
    Step dict ctx ctx' (.leaf da value) vps vps' bytes := by
  have hcui : dict.attr dict.attrChargeableUserIdentity = 89 := (dict.child dict.chargeableUserIdentity.1).1
  have hma : dict.attr dict.attrMessageAuthenticator = 80 := attr_messageAuthenticator
  have hnonempty (hcase : ¬(da = dict.attrChargeableUserIdentity ∧ value.isEmpty))
      (hnotMa : da ≠ dict.attrMessageAuthenticator) : value.isEmpty = false := by
    refine Bool.eq_false_iff.mpr fun hnil => ?_
    rcases hempty hnil with rfl | rfl
    · exact hcase ⟨rfl, hnil⟩
    · exact hnotMa rfl
  unfold encodeRfc at h
  dsimp only [Pair.da] at h
  split_ifs at h with hbad hstandard hcase hisMa hseen hisRule
  · obtain ⟨rfl, hnil⟩ := hcase
    cases h
    have hne : dict.attrChargeableUserIdentity ≠ dict.attrMessageAuthenticator := fun heq => by
      rw [heq, hma] at hcui
      exact absurd hcui (by decide)
    refine ⟨suffix_refl _, .nothing, ?_, fun rounds => ?_⟩
    · rw [hcui, dbuffIn]
      split
      · exact show Scans (frame 89 []) .nothing from scans_frame (by decide) (Nat.zero_le _)
      · exact .nil
    · rw [meets, if_neg hne, if_pos hnil]
      rfl
  · subst hisMa
    cases h
    refine ⟨suffix_refl _, .nothing, .nil, fun rounds => ?_⟩
    rw [meets, if_pos rfl, if_pos hseen]
    rfl
  · subst hisMa
    obtain ⟨out, hout, h⟩ := encodeOk_of_bind h
    cases h
    obtain ⟨rfl, -⟩ := write_ok hout
    refine ⟨suffix_refl _, .messageAuthenticator, ?_, fun rounds => ?_⟩
    · rw [hma]
      exact show Scans (frame attrMessageAuthenticator Digest.zero.val) _ from
        scans_messageAuthenticator (by decide)
    · rw [meets, if_pos rfl, if_neg hseen]
      rfl
  · have hnil := hnonempty hcase hisMa
    subst hisRule
    obtain ⟨out, hout, h⟩ := encodeOk_of_bind h
    cases h
    exact step_filterRule hda hnil hisMa hout
  · obtain ⟨⟨out, ctx''⟩, hout, h⟩ := encodeOk_of_bind h
    cases h
    rw [not_or, Nat.not_lt] at hstandard
    exact step_encodeChild hda hstandard.2 (hnonempty hcase hisMa) hisMa hisRule hout

theorem step_frRadiusEncodePair (hda : TopLevel dict da value)
    (h : frRadiusEncodePair dict params ctx (.leaf da value :: vps) room = .ok (bytes, ctx', vps')) :
    Step dict ctx ctx' (.leaf da value) vps vps' bytes := by
  change encodeUntagged dict params ctx (.leaf da value :: vps) room = _ at h
  unfold encodeUntagged at h
  simp only at h
  split at h
  · next hskip =>
    obtain ⟨hnil, -, hnotMa⟩ := hskip
    cases h
    refine ⟨suffix_refl _, .nothing, .nil, fun rounds => ?_⟩
    rw [meets, if_neg hnotMa, if_pos hnil]
    rfl
  next hskip =>
  have hempty : value.isEmpty = true → da = dict.attrChargeableUserIdentity ∨
      da = dict.attrMessageAuthenticator := by
    intro hnil
    by_contra hno
    exact hskip ⟨hnil, not_or.mp hno⟩
  split at h
  · exact step_encodeRfc hda hempty h
  split at h
  · next s =>
    split at h
    · next hconcat =>
      obtain ⟨out, hout, h⟩ := encodeOk_of_bind h
      cases h
      have hattr : dict.attr da ≠ 80 := fun h80 =>
        Bool.false_ne_true ((hda.plain h80).1.symm.trans hconcat)
      have hnotMa : da ≠ dict.attrMessageAuthenticator := by
        rintro rfl
        exact hattr attr_messageAuthenticator
      have hnotRule : da ≠ dict.attrNasFilterRule := by
        rintro rfl
        obtain ⟨s', hs'⟩ := hda.string dict.nasFilterRule.2
        cases hs'
      refine ⟨suffix_refl _, .nothing, scans_encodeConcat
        (ofNat_ne_messageAuthenticator (hda.standard hconcat) hattr) hout, fun rounds => ?_⟩
      rw [meets, if_neg hnotMa, if_neg hattr, if_neg hnotRule, ite_self]
      rfl
    · exact step_encodeRfc hda hempty h
  · exact step_encodeRfc hda hempty h

theorem scans_encodePairs (hrounds : vps.length ≤ rounds)
    (hvps : ∀ vp ∈ vps, ∃ da value, vp = .leaf da value ∧ TopLevel dict da value)
    (h : encodePairs (frRadiusEncodePair dict params) rounds ctx vps room = .ok (bytes, ctx')) :
    Scans bytes (meets dict rounds ctx.seenMessageAuthenticator vps) := by
  induction rounds generalizing ctx vps room bytes with
  | zero =>
    cases h
    exact .nil
  | succ rounds ih =>
    rw [encodePairs] at h
    cases vps with
    | nil =>
      cases h
      exact .nil
    | cons vp vps =>
      obtain ⟨da, value, rfl, hda⟩ := hvps vp mem_cons_self
      rw [isEmpty_cons, if_neg Bool.false_ne_true] at h
      obtain ⟨⟨first, ctx₁, vps'⟩, hfirst, h⟩ := encodeOk_of_bind h
      obtain ⟨⟨more, ctx₂⟩, hmore, h⟩ := encodeOk_of_bind h
      cases h
      obtain ⟨hsuffix, met, hscans, hmeets⟩ := step_frRadiusEncodePair hda hfirst
      rw [hmeets]
      refine hscans.append (ih ?_ (fun vp hvp => hvps vp ?_) hmore)
      · exact hsuffix.length_le.trans (Nat.le_of_succ_le_succ hrounds)
      · exact mem_cons_of_mem _ (hsuffix.subset hvp)

end Pairs

section Packet

variable [DecidableEq Da]

/-- Whether `fr_radius_encode` puts a Message-Authenticator in front of the pairs. -/
def addsMessageAuthenticator (ctx : EncodeCtx) : Bool :=
  !ctx.secureTransport && ctx.code ∈ [codeAccessRequest, 2, 3, 11, codeStatusServer]

/-- What the search meets first in a packet. -/
def packetMeets (dict : Dict Da) (ctx : EncodeCtx) (vps : List (Pair Da V)) : Met :=
  if addsMessageAuthenticator ctx then .messageAuthenticator
  else
    let vps := vps.filter (isEncodable dict)
    meets dict vps.length ctx.seenMessageAuthenticator vps

/-- The search does not fail, and what it finds can be signed. -/
def Signable (dict : Dict Da) (ctx : EncodeCtx) (vps : List (Pair Da V)) (secret : List UInt8) :
    Prop :=
  secret.length ≤ 65535 ∧ packetMeets dict ctx vps ≠ .malformed ∧
    (ctx.code = codeProtocolError → packetMeets dict ctx vps ≠ .messageAuthenticator)

instance (ctx : EncodeCtx) (vps : List (Pair Da V)) (secret : List UInt8) :
    Decidable (Signable dict ctx vps secret) :=
  inferInstanceAs (Decidable (_ ∧ _ ∧ (_ → _)))

/-- Signing the packet returns 0, and verifying it with the same vector and secret does, too. -/
def SignedVerifies (hmacMd5 md5 : List UInt8 → List UInt8 → Digest) (packet : List UInt8)
    (vector : Option Digest) (secret : List UInt8) (requireMa limit : Bool) : Prop :=
  let signed := frRadiusSign hmacMd5 md5 packet vector secret
  signed.2 = .ok () ∧
    (frRadiusVerify hmacMd5 md5 signed.1 vector secret requireMa limit).2 = .ok ()

omit [DecidableEq Da] in
theorem scans_leadingAttributes (ctx : EncodeCtx) :
    Scans (leadingAttributes ctx)
      (if addsMessageAuthenticator ctx then .messageAuthenticator else .nothing) := by
  have hma : Scans (if addsMessageAuthenticator ctx then
      attrMessageAuthenticator :: 18 :: Digest.zero.val else [])
      (if addsMessageAuthenticator ctx then .messageAuthenticator else .nothing) := by
    split
    · exact show Scans (frame attrMessageAuthenticator Digest.zero.val) _ from
        scans_messageAuthenticator (by decide)
    · exact .nil
  have hcode : Scans (if ctx.code = codeProtocolError then [241, 7, 4, 0, 0, 0, ctx.requestCode] else [])
      .nothing := by
    split
    · exact show Scans (frame 241 [4, 0, 0, 0, ctx.requestCode]) .nothing from
        scans_frame (by decide) (by simp)
    · exact .nil
  have h := hma.append hcode
  rwa [Met.andThen_nothing] at h

variable {params : EncodeParams Da V} {ctx : EncodeCtx} {requestAuthenticator : Option Digest}
  {random : Digest} {vps : List (Pair Da V)} {room : ℕ} {packet : List UInt8}

/-- What `fr_radius_encode` returns: a header with the length of the packet, and attributes. -/
structure EncodedAs (dict : Dict Da) (ctx : EncodeCtx) (requestAuthenticator : Option Digest)
    (random : Digest) (vps : List (Pair Da V)) (packet : List UInt8) : Prop where
  shape : ∃ front attrs, packet = front ++ attrs ∧ front.length = radiusHeaderLength ∧
    Scans attrs (packetMeets dict ctx vps)
  code : byte packet 0 = ctx.code
  size : lengthField packet = packet.length
  vector : ∃ vector, encodeAuthenticator dict ctx.code requestAuthenticator random vps = .ok vector

/-- A Message-Authenticator in front of the pairs comes first, and then they have none. -/
theorem Scans.withLeading (h : Scans bytes (meets dict (vps.filter (isEncodable dict)).length
    (ctx.seenMessageAuthenticator || addsMessageAuthenticator ctx) (vps.filter (isEncodable dict)))) :
    Scans (leadingAttributes ctx ++ bytes) (packetMeets dict ctx vps) := by
  have hall := (scans_leadingAttributes ctx).append h
  unfold packetMeets
  cases hadds : addsMessageAuthenticator ctx with
  | true =>
    rw [hadds] at hall
    exact hall
  | false =>
    rw [hadds, Bool.or_false] at hall
    exact hall

/-- The length of a packet is written into its header. -/
theorem splice_length {code id : UInt8} {rest whole : List UInt8}
    (hwhole : whole = [code, id] ++ ([0, 20] ++ rest)) (hle : whole.length ≤ 65535) :
    splice whole 2 (nboBytes 2 whole.length) = [code, id] ++ nboBytes 2 whole.length ++ rest ∧
    lengthField (splice whole 2 (nboBytes 2 whole.length)) =
      (splice whole 2 (nboBytes 2 whole.length)).length := by
  obtain ⟨len, hlen⟩ : ∃ len, len = nboBytes 2 whole.length := ⟨_, rfl⟩
  have hlen2 : len.length = 2 := by rw [hlen, length_nboBytes]
  have hfits : 2 + len.length ≤ whole.length := by
    rw [hlen2, hwhole]
    simp only [length_append, length_cons]
    omega
  rw [← hlen, length_splice hfits, lengthField, slice_splice_self hfits hlen2, hlen,
    nboValue_nboBytes (by omega)]
  refine ⟨?_, rfl⟩
  rw [← hlen, hwhole]
  exact (splice_append [code, id] _ len).trans (by rw [hlen2]; rfl)

theorem encodedAs_of_ok
    (hvps : ∀ vp ∈ vps.filter (isEncodable dict), ∃ da value, vp = .leaf da value ∧
      TopLevel dict da value)
    (h : frRadiusEncode dict params ctx requestAuthenticator random vps room = .ok packet) :
    EncodedAs dict ctx requestAuthenticator random vps packet := by
  unfold frRadiusEncode at h
  obtain ⟨header, hheader, h⟩ := encodeOk_of_bind h
  obtain ⟨vector, hvector, h⟩ := encodeOk_of_bind h
  obtain ⟨front, hfront, h⟩ := encodeOk_of_bind h
  obtain ⟨⟨bytes, ctx'⟩, hbytes, h⟩ := encodeOk_of_bind h
  obtain ⟨whole, hwhole, hpacket⟩ := encodeOk_of_bind h
  obtain ⟨rfl, -⟩ := write_ok hheader
  obtain ⟨rfl, -⟩ := write_ok hfront
  obtain ⟨hwhole, hle⟩ := write_ok hwhole
  obtain rfl : splice whole 2 (nboBytes 2 whole.length) = packet := Except.ok.inj hpacket
  have hpairs := scans_encodePairs le_rfl hvps hbytes
  obtain ⟨proxyState, hproxy⟩ : ∃ l, l = (if ctx'.addProxyState then
    attrProxyState :: 10 :: nboBytes 8 ctx'.proxyState else []) := ⟨_, rfl⟩
  have hscansProxy : Scans proxyState .nothing := by
    rw [hproxy]
    split
    · exact show Scans (frame attrProxyState (nboBytes 8 ctx'.proxyState)) .nothing from
        scans_frame (by decide) (by simp)
    · exact .nil
  have hattrs := hpairs.append hscansProxy
  rw [Met.andThen_nothing] at hattrs
  rw [← hproxy] at hwhole
  have hmin := Nat.min_le_right room 65535
  obtain ⟨hsplice, hsize⟩ := @splice_length ctx.code ctx.id
    (vector.val ++ (leadingAttributes ctx ++ (bytes ++ proxyState))) whole
    (by rw [hwhole]; simp only [append_assoc, cons_append, nil_append]) (by omega)
  refine ⟨⟨[ctx.code, ctx.id] ++ nboBytes 2 whole.length ++ vector.val, _, ?_, ?_, hattrs.withLeading⟩,
    ?_, hsize, vector, hvector⟩
  · rw [hsplice, append_assoc _ vector.val]
  · rw [length_append, length_append, length_nboBytes, vector.property]
    rfl
  · rw [hsplice]
    rfl

/-- The `switch` statements know every code that `fr_radius_encode` does. -/
theorem canSign_of_encodeAuthenticator {code : UInt8} {vector : Digest}
    (h : encodeAuthenticator dict code requestAuthenticator random vps = .ok vector) :
    CanSign code requestAuthenticator ∧ ¬(code = 0 ∨ codeMax ≤ code) := by
  unfold encodeAuthenticator at h
  split_ifs at h with hrandom hreply hrequest
  · rcases List.mem_pair.mp hrandom with rfl | rfl <;> exact ⟨trivial, by decide⟩
  · cases requestAuthenticator with
    | none => cases h
    | some v =>
      simp only [mem_cons, not_mem_nil, or_false] at hreply
      rcases hreply with rfl | rfl | rfl | rfl | rfl | rfl | rfl | rfl | rfl <;>
        exact ⟨rfl, by decide⟩
  · simp only [mem_cons, not_mem_nil, or_false] at hrequest
    rcases hrequest with rfl | rfl | rfl <;> exact ⟨trivial, by decide⟩

variable {hmacMd5 md5 : List UInt8 → List UInt8 → Digest} {secret : List UInt8}
  {requireMa limit : Bool}

theorem EncodedAs.find (h : EncodedAs dict ctx requestAuthenticator random vps packet) :
    (packetMeets dict ctx vps).Outcome (lengthField packet) (findMessageAuthenticator packet
      (lengthField packet) (lengthField packet) radiusHeaderLength false) := by
  obtain ⟨⟨front, attrs, rfl, hfront, hscans⟩, -, hsize, -⟩ := h
  rw [hsize, ← hfront]
  exact hscans.find front (by rw [length_append]; omega) false

/-- A packet that the search goes through is one that can be verified. -/
theorem EncodedAs.accepted (h : EncodedAs dict ctx requestAuthenticator random vps packet)
    {found : Option ℕ} {q : Bool}
    (hfind : findMessageAuthenticator packet (lengthField packet) (lengthField packet)
      radiusHeaderLength false = .ok (found, q))
    (hfound : ∀ msg, found = some msg → msg + 18 ≤ lengthField packet) :
    Accepted packet ∧ firstMa (attributes packet) = found := by
  obtain ⟨hscanned, hfirst⟩ := scanned_of_find hfind hfound
  obtain ⟨vector, hvector⟩ := h.vector
  refine ⟨⟨?_, ?_, h.size.le, hscanned⟩, hfirst⟩
  · rw [h.code]
    exact (canSign_of_encodeAuthenticator hvector).2
  · obtain ⟨front, attrs, rfl, hfront, -⟩ := h.shape
    rw [h.size, length_append, hfront]
    exact Nat.le_add_right _ _

/-- A packet that the search goes through is signed and verified, unless the secret is too long or a
Protocol-Error has a Message-Authenticator. -/
theorem EncodedAs.signed_iff (h : EncodedAs dict ctx requestAuthenticator random vps packet)
    {found : Option ℕ} {q : Bool}
    (hfind : findMessageAuthenticator packet (lengthField packet) (lengthField packet)
      radiusHeaderLength false = .ok (found, q))
    (hfound : ∀ msg, found = some msg → msg + 18 ≤ lengthField packet)
    (hrequired : found = none → Required packet requireMa limit) :
    SignedVerifies hmacMd5 md5 packet requestAuthenticator secret requireMa limit ↔
      secret.length ≤ 65535 ∧ (ctx.code = codeProtocolError → found = none) := by
  obtain ⟨haccepted, hfirst⟩ := h.accepted hfind hfound
  obtain ⟨vector, hvector⟩ := h.vector
  have hcan := (canSign_of_encodeAuthenticator hvector).1
  have hsign := @frRadiusSign_ok_iff hmacMd5 md5 packet secret requestAuthenticator haccepted
  rw [hfirst, h.code, and_iff_right hcan] at hsign
  rw [SignedVerifies, ← hsign]
  refine and_iff_left_of_imp (frRadiusVerify_of_sign haccepted fun hcode hnone => ?_)
  exact hrequired (hfirst.symm.trans hnone) hcode hnone

/-- Without a Message-Authenticator in an Access-Request the transport is secure. -/
theorem EncodedAs.required (h : EncodedAs dict ctx requestAuthenticator random vps packet)
    (hpolicy : ctx.secureTransport = true → requireMa = false ∧ limit = false)
    (hmeets : packetMeets dict ctx vps = .nothing) : Required packet requireMa limit := by
  intro hcode _
  have hsecure : ctx.secureTransport = true := by
    by_contra hnot
    have hadds : addsMessageAuthenticator ctx = true := by
      rw [addsMessageAuthenticator, Bool.not_eq_true] at *
      rw [hnot, ← h.code, hcode]
      rfl
    rw [packetMeets, if_pos hadds] at hmeets
    cases hmeets
  obtain ⟨hrequire, hlimit⟩ := hpolicy hsecure
  exact ⟨hrequire, fun h => Bool.noConfusion (hlimit.symm.trans h)⟩

/-- A packet that was encoded from leaves of the top level is signed and verified, but for the
cases that `Signable` leaves out. Verification does not insist on a Message-Authenticator if the
transport is secure, because none is added then. -/
theorem signedVerifies_iff
    (hvps : ∀ vp ∈ vps.filter (isEncodable dict), ∃ da value, vp = .leaf da value ∧
      TopLevel dict da value)
    (hpolicy : ctx.secureTransport = true → requireMa = false ∧ limit = false)
    (h : frRadiusEncode dict params ctx requestAuthenticator random vps room = .ok packet) :
    SignedVerifies hmacMd5 md5 packet requestAuthenticator secret requireMa limit ↔
      Signable dict ctx vps secret := by
  have hencoded := encodedAs_of_ok hvps h
  have houtcome := hencoded.find
  unfold Signable
  cases hmeets : packetMeets dict ctx vps with
  | nothing =>
    rw [hmeets] at houtcome
    obtain ⟨q, hfind⟩ := houtcome
    rw [hencoded.signed_iff hfind (by rintro _ ⟨⟩) fun _ => hencoded.required hpolicy hmeets]
    simp
  | messageAuthenticator =>
    rw [hmeets] at houtcome
    obtain ⟨msg, q, hfind, hwithin⟩ := houtcome
    rw [hencoded.signed_iff hfind (by rintro _ ⟨⟩; exact hwithin) (by rintro ⟨⟩)]
    simp
  | malformed =>
    rw [hmeets] at houtcome
    obtain ⟨e, hfind⟩ := houtcome
    refine iff_of_false ?_ fun h => h.2.1 rfl
    rintro ⟨hsign, -⟩
    rw [frRadiusSign] at hsign
    split at hsign
    · cases hsign
    rw [hfind] at hsign
    split at hsign <;> cases hsign

end Packet

section Sample

def EncodeCtx.protocolError : EncodeCtx := { EncodeCtx.sample with code := codeProtocolError }

def Pair.sampleMa : Pair SampleDa ℕ := .leaf (.child .root 80) (.octets [])

theorem topLevel_sampleMa : ∀ vp ∈ [Pair.sampleMa].filter (isEncodable Dict.sample),
    ∃ da value, vp = .leaf da value ∧ TopLevel Dict.sample da value := by
  intro vp hvp
  have hmem := mem_of_mem_filter hvp
  rw [mem_singleton] at hmem
  subst hmem
  exact ⟨_, _, rfl, rfl, fun _ => rfl, nofun, fun _ => ⟨_, rfl⟩, nofun, fun _ => ⟨rfl, rfl, rfl⟩⟩

/-- An Access-Accept with a Message-Authenticator among its pairs. -/
theorem signedVerifies_iff_accept :
    (∃ packet, frRadiusEncode Dict.sample EncodeParams.sample EncodeCtx.sample (some Digest.zero)
      Digest.zero [Pair.sampleMa] 4096 = .ok packet ∧ packet.length = 38 ∧
      SignedVerifies (fun _ _ => Digest.zero) (fun _ _ => Digest.zero) packet (some Digest.zero)
        [1] true true) ∧
      Signable Dict.sample EncodeCtx.sample [Pair.sampleMa] [1] := by
  have hsignable : Signable Dict.sample EncodeCtx.sample [Pair.sampleMa] [1] := by decide
  obtain ⟨packet, hpacket, hlen⟩ : ∃ packet, frRadiusEncode Dict.sample EncodeParams.sample
    EncodeCtx.sample (some Digest.zero) Digest.zero [Pair.sampleMa] 4096 = .ok packet ∧
      packet.length = 38 := ⟨_, rfl, rfl⟩
  have hpolicy : EncodeCtx.sample.secureTransport = true → true = false ∧ true = false :=
    fun h => absurd h (by decide)
  exact ⟨⟨packet, hpacket, hlen,
    (signedVerifies_iff topLevel_sampleMa hpolicy hpacket).mpr hsignable⟩, hsignable⟩

/-- The Message-Authenticator of a Protocol-Error is encoded, but not signed. -/
theorem protocolError_not_signed :
    ∃ packet, frRadiusEncode Dict.sample EncodeParams.sample EncodeCtx.protocolError
        (some Digest.zero) Digest.zero [Pair.sampleMa] 4096 = .ok packet ∧
      (frRadiusSign (fun _ _ => Digest.zero) (fun _ _ => Digest.zero) packet (some Digest.zero)
        [1]).2 = .error (.badPacket codeProtocolError) ∧
      ¬SignedVerifies (fun _ _ => Digest.zero) (fun _ _ => Digest.zero) packet (some Digest.zero) [1]
        false false := by
  refine ⟨_, rfl, by decide, fun h => ?_⟩
  have hsign : (frRadiusSign (fun _ _ => Digest.zero) (fun _ _ => Digest.zero) _ (some Digest.zero)
    [1]).2 = .ok () := h.1
  exact absurd hsign (by decide)

end Sample

end FreeRadius.Radius
