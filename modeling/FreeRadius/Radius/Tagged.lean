import FreeRadius.Radius.Leaf

/-!
# Tagged attributes

The encoder puts a tag in front of a string if there is one, or if the string begins with what
looks like a tag. The decoder takes any first byte below 0x20 for a tag, zero included, so that
strings which begin with a zero, and tunnel passwords which have two bytes in front, do not come
back.
-/

namespace FreeRadius.Radius

open Library List EncodeCtx

variable {Da V : Type} [DecidableEq Da] {dict : Dict Da} {ep : EncodeParams Da V}
  {dp : DecodeParams Da V} {ec : EncodeCtx} {dc : DecodeCtx} {da : Da} {value : Value V}
  {tag : UInt8} {s : List UInt8} {room need : ℕ}

variable (dict) in
/-- A decoder that has made something else out of a string has not found it. -/
theorem placed_ne_raw (tag : UInt8) (da da' : Da) (s b : List UInt8) :
    (Lists.openTag ⟨[], []⟩ tag).append (.leaf da' (.octets b)) ≠
      (placed dict tag da (.string s) ⟨[], []⟩ : Lists Da V) := by
  intro h
  have hout := congrArg Lists.out h
  have hopen : (Lists.openTag (⟨[], []⟩ : Lists Da V) tag).out = [] := by
    unfold Lists.openTag
    split <;> rfl
  unfold placed at hout
  split at hout
  · simp [Lists.append, hopen] at hout
  · simp [Lists.append, hopen] at hout

section Plaintext

/-- The values of attributes that may have a tag, and the room that they need with it. -/
inductive Taggable (dict : Dict Da) (da : Da) : Value V → ℕ → Prop where
  | string {s : List UInt8} (htype : dict.type da = .string)
    (habinary : (dict.flags da).abinary = false)
    (hlength : (dict.flags da).length = 0 ∨ (dict.flags da).length = s.length)
    (hs : s ≠ []) (hmax : s.length ≤ 252) : Taggable dict da (.string s) (s.length + 1)
  | uint32 {n : UInt32} (htype : dict.type da = .uint32) (hn : n.toNat < 2 ^ 24) :
    Taggable dict da (.uint32 n) 4

theorem splitTag_string {flags : Flags} {b : UInt8} (hflag : flags.hasTag = true) (hb : b < 0x20)
    (hs : s.length < 255) : splitTag flags .string (b :: s) = some (b, s) := by
  have hbyte : byte (b :: s) 0 = b := rfl
  have hshort : ¬256 ≤ (b :: s).length := by
    rw [length_cons]
    omega
  simp only [splitTag, hflag, hbyte, hb, if_neg hshort, Bool.not_true, if_true, reduceCtorEq,
    Bool.false_eq_true, ne_eq, not_true, if_false]
  rfl

section Strings

variable (habinary : (dict.flags da).abinary = false)
  (hlength : (dict.flags da).length = 0 ∨ (dict.flags da).length = s.length)

include habinary hlength

omit [DecidableEq Da] in
theorem valueToNetwork_string (hroom : s.length ≤ room) :
    valueToNetwork ep (dict.flags da) (.string s) room = .ok s := by
  simp only [valueToNetwork, habinary, Bool.false_eq_true, if_false, fixLength_eq hlength]
  exact write_of_le hroom

variable (hencrypt : (dict.flags da).encrypt = .none)

include hencrypt

omit [DecidableEq Da] in
theorem encodeLeaf_string {t : List UInt8} (hs : s ≠ [])
    (htag : tagBytes ec.tag (dict.flags da) (.string s : Value V) = t)
    (hroom : t.length + s.length ≤ room) :
    encodeLeaf dict ep ec da (.string s) room = .ok (t ++ s, ec) := by
  have hwrite : valueToNetwork ep (dict.flags da) (.string s) (room - t.length) = .ok s :=
    valueToNetwork_string habinary hlength (by omega)
  refine encodeLeaf_eq (e := ⟨s, 0, ec⟩) htag (by omega) hwrite hs ?_ rfl
  rw [encryptValue, hencrypt]

variable (htype : dict.type da = .string) (hflag : (dict.flags da).hasTag = true)

include htype hflag

variable (ec) in
/-- A string with a tag in front, or one that does not begin with what may be a tag. -/
theorem string_roundTrips (htag : ec.tag < 0x20) (hs : s ≠ []) (hmax : s.length ≤ 252) (hroom : s.length + 1 ≤ room)
    (hzero : ec.tag = 0 → byte s 0 ≠ 0) :
    RoundTrips dict ep dp ec dc ec.tag da (.string s) room := by
  have hleaf : (dict.type da).isLeaf = true := by rw [htype]; rfl
  have hvalue : decodeLeaf dict dp da s = some (.string s) := by
    simp only [decodeLeaf, htype, habinary, Bool.false_eq_true, if_false,
      variableFromNetwork_eq hlength, Option.map_some]
  have hdecrypt : ∀ n, decryptValue dp dc (dict.flags da) n s = some s := by
    intro n
    rw [decryptValue, hencrypt]
  obtain ⟨t, ht⟩ : ∃ t, tagBytes ec.tag (dict.flags da) (.string s : Value V) = t := ⟨_, rfl⟩
  -- the decoder finds the tag that the encoder has written
  have hsplit : splitTag (dict.flags da) (dict.type da) (t ++ s) = some (ec.tag, s) ∧
      t.length ≤ 1 := by
    rw [← ht, htype]
    simp only [tagBytes, hflag, Bool.not_true, Bool.false_eq_true, if_false]
    split
    · exact ⟨splitTag_string hflag htag (Nat.lt_of_le_of_lt hmax (by decide)), le_rfl⟩
    next h =>
    have hnone : ec.tag = 0 := not_not.mp h
    split
    · rw [hnone]
      exact ⟨splitTag_string hflag (by decide) (Nat.lt_of_le_of_lt hmax (by decide)), le_rfl⟩
    next hvalid =>
    have hhigh : ¬byte s 0 < 0x20 := by
      have hpos : 0 < byte s 0 := UInt8.pos_iff_ne_zero.mpr (hzero hnone)
      simpa [tagValid, hpos] using hvalid
    simp only [splitTag, hflag, nil_append, hhigh, Bool.not_true, reduceCtorEq,
      Bool.false_eq_true, ne_eq, not_true, if_false, hnone]
    exact ⟨trivial, Nat.zero_le _⟩
  refine ⟨t ++ s, ec, ?_, append_ne_nil_of_right_ne_nil t hs, fun rest st => ?_⟩
  · exact encodeLeaf_string habinary hlength hencrypt hs ht (by omega)
  · rw [frRadiusDecodePairValue_leaf hleaf (append_ne_nil_of_right_ne_nil t hs)
      (by rw [length_append]; omega), decodeLeafValue_eq hsplit.1 (hdecrypt _) hvalue]

/-- The decoder takes the zero at the beginning of a string for a tag. -/
theorem string_not_roundTrips {t : List UInt8} (ht : s = 0 :: t) (hmax : s.length ≤ 252)
    (htag : ec.tag = 0) (hroom : s.length ≤ room) :
    ¬RoundTrips dict ep dp ec dc 0 da (.string s) room := by
  obtain rfl := ht
  rw [length_cons] at hmax hroom
  rintro ⟨bytes, ec', hbytes, hne, hdecode⟩
  have hnone : tagBytes ec.tag (dict.flags da) (.string (0 :: t) : Value V) = [] := by
    simp [tagBytes, hflag, htag, tagValid, byte]
  rw [encodeLeaf_string habinary hlength hencrypt (cons_ne_nil 0 t) hnone (by simpa using hroom)]
    at hbytes
  cases hbytes
  have hleaf : (dict.type da).isLeaf = true := by rw [htype]; rfl
  have hsplit : splitTag (dict.flags da) (dict.type da) (0 :: t) = some (0, t) := by
    rw [htype]
    exact splitTag_string hflag (by decide) (by omega)
  have hdecrypt : decryptValue dp dc (dict.flags da) (0 :: t).length t = some t := by
    rw [decryptValue, hencrypt]
  have hlists := hdecode [] ⟨[], []⟩
  rw [nil_append,
    frRadiusDecodePairValue_leaf hleaf (cons_ne_nil 0 t) (by rw [length_cons]; omega)] at hlists
  rcases hlength with hlength | hlength
  · have hvalue : decodeLeaf dict dp da t = some (.string t) := by
      simp [decodeLeaf, htype, habinary, hlength, variableFromNetwork]
    rw [decodeLeafValue_eq hsplit hdecrypt hvalue] at hlists
    have hout := congrArg (fun r => r.2.out) hlists
    simp [placed, Lists.append] at hout
  -- the value is too short for the attribute now
  have hvalue : decodeLeaf dict dp da t = none := by
    simp [decodeLeaf, htype, habinary, hlength, variableFromNetwork]
  simp only [decodeLeafValue, hsplit, hdecrypt, hvalue] at hlists
  split at hlists
  · exact absurd (congrArg Prod.fst hlists) (by simp)
  · exact placed_ne_raw dict 0 da _ _ _ (congrArg Prod.snd hlists)

end Strings

variable (ec) in
theorem uint32_roundTrips {n : UInt32} (htype : dict.type da = .uint32)
    (hflag : (dict.flags da).hasTag = true) (hencrypt : (dict.flags da).encrypt = .none)
    (htag : ec.tag < 0x20) (hn : n.toNat < 2 ^ 24) (hroom : 4 ≤ room) :
    RoundTrips dict ep dp ec dc ec.tag da (.uint32 n) room := by
  have hleaf : (dict.type da).isLeaf = true := by rw [htype]; rfl
  have hhigh : UInt8.ofNat (n.toNat / 256 ^ 3) = 0 := by
    rw [Nat.div_eq_of_lt (by omega)]
    rfl
  have hnet : nboBytes 4 n.toNat = 0 :: nboBytes 3 n.toNat := by
    rw [nboBytes, hhigh]
  have hlen : (ec.tag :: nboBytes 3 n.toNat).length = 4 := by
    rw [length_cons, length_nboBytes]
  have hwrite : valueToNetwork ep (dict.flags da) (.uint32 n : Value V) room =
      .ok (0 :: nboBytes 3 n.toNat) := by
    rw [valueToNetwork, hnet]
    exact write_of_le hroom
  have hencrypted : encryptValue ep ec (dict.flags da) (0 :: nboBytes 3 n.toNat) room =
      .ok (some ⟨0 :: nboBytes 3 n.toNat, 0, ec⟩) := by
    rw [encryptValue, hencrypt]
  have hout : tagInteger (dict.flags da) (.uint32 n : Value V) ⟨0 :: nboBytes 3 n.toNat, 0, ec⟩ =
      some (ec.tag :: nboBytes 3 n.toNat) := by
    simp [tagInteger, hflag, byte]
  have hsplit : splitTag (dict.flags da) (dict.type da) (ec.tag :: nboBytes 3 n.toNat) =
      some (ec.tag, nboBytes 4 n.toNat) := by
    have hbyte : byte (ec.tag :: nboBytes 3 n.toNat) 0 = ec.tag := rfl
    have htag' : ¬0x20 ≤ ec.tag := UInt8.not_le.mpr htag
    simp only [splitTag, hflag, htype, hlen, hbyte, htag', Bool.not_true, Bool.false_eq_true, ne_eq,
      not_true, or_self, if_false, if_true, drop_one, tail_cons, ← hnet]
  have hvalue : decodeLeaf dict dp da (nboBytes 4 n.toNat) = some (.uint32 n) := by
    have hlt : n.toNat < 256 ^ 4 := n.toNat_lt
    simp only [decodeLeaf, htype, length_nboBytes, Nat.lt_irrefl, false_and, or_self, if_false,
      take_of_length_le (length_nboBytes 4 n.toNat).le, nboValue_nboBytes hlt, UInt32.ofNat_toNat]
  refine ⟨ec.tag :: nboBytes 3 n.toNat, ec, ?_, cons_ne_nil _ _, fun rest st => ?_⟩
  · exact encodeLeaf_eq (e := ⟨_, 0, ec⟩) rfl (Nat.zero_le _) hwrite (cons_ne_nil _ _) hencrypted
      hout
  have hdecrypt : decryptValue dp dc (dict.flags da) (ec.tag :: nboBytes 3 n.toNat).length
      (nboBytes 4 n.toNat) = some (nboBytes 4 n.toNat) := by
    rw [decryptValue, hencrypt]
  rw [frRadiusDecodePairValue_leaf hleaf (cons_ne_nil _ _) (by omega),
    decodeLeafValue_eq hsplit hdecrypt hvalue]

/-- Tagged attributes come back, except for strings without a tag that begin with a zero. -/
theorem tagged_survives_iff (hflag : (dict.flags da).hasTag = true)
    (hencrypt : (dict.flags da).encrypt = .none) (hvalue : Taggable dict da value need)
    (htag : tag < 0x20) :
    Survives dict ep dp ec dc tag da value need ↔ ¬(tag = 0 ∧ ∃ s, value = .string (0 :: s)) := by
  cases hvalue with
  | @string s htype habinary hlength hs hmax =>
    have hempty : (Value.string s : Value V).isEmpty = false := decide_eq_false hs
    rw [survives_iff hempty (fun _ h => by cases h) htag (by omega)]
    constructor
    · rintro h ⟨rfl, t, ht⟩
      cases ht
      exact string_not_roundTrips habinary hlength hencrypt htype hflag rfl hmax rfl (Nat.le_succ _)
        (h _ le_rfl (Nat.succ_le_succ hmax))
    intro h room hroom _
    refine string_roundTrips { ec with tag := tag } habinary hlength hencrypt htype hflag htag hs
      hmax hroom ?_
    intro hzero hbyte
    obtain ⟨b, t, rfl⟩ := exists_cons_of_ne_nil hs
    exact h ⟨hzero, t, by rw [show b = 0 from hbyte]⟩
  | uint32 htype hn =>
    rw [survives_iff rfl (fun _ h => by cases h) htag (by omega)]
    constructor
    · rintro - ⟨-, t, ht⟩
      cases ht
    · intro _ room hroom _
      exact uint32_roundTrips { ec with tag := tag } htype hflag hencrypt htag hn hroom

theorem tagged_survives_iff_tag :
    Survives Dict.sample EncodeParams.sample DecodeParams.sample EncodeCtx.sample DecodeCtx.sample 7
        (.child .root 82) (.string [0, 97] : Value Empty) 3 ↔
      ¬((7 : UInt8) = 0 ∧ ∃ s, (.string [0, 97] : Value Empty) = .string (0 :: s)) :=
  tagged_survives_iff rfl rfl (.string rfl rfl (.inl rfl) (by decide) (by decide)) (by decide)

/-- A Tunnel-Assignment-Id without a tag, of a zero and the letter "a": only the letter comes
back. -/
theorem tagged_zero_lost :
    (frRadiusEncodePair Dict.sample EncodeParams.sample EncodeCtx.sample
      [.leaf (.child .root 82) (.string [0, 97] : Value Empty)] 255).map (·.1) = .ok [82, 4, 0, 97] ∧
    frRadiusDecodePair Dict.sample DecodeParams.sample DecodeCtx.sample [82, 4, 0, 97] ⟨[], []⟩ =
      (some 4, ⟨[.leaf (.child .root 82) (.string [97] : Value Empty)], []⟩) := by
  constructor <;> rfl

end Plaintext

section TunnelPassword

/-- The length of what is behind the salt, if the tunnel password is written into so much
room. -/
def cipherLength (inlen room : ℕ) : ℕ :=
  min (encryptedLength inlen) (min room radiusMaxStringLength - 2)

def tunnelCipher (md5 : List UInt8 → Digest) (ec : EncodeCtx) (s : List UInt8) (m : ℕ) :
    List UInt8 :=
  chainEncrypt md5 ec.secret m (ec.requestAuthenticator.val ++ tunnelSalt ec.rand ec.saltOffset s)
    ((tunnelText ec.rand s).take m)

def tunnelPadding (ec : EncodeCtx) (s : List UInt8) (m : ℕ) : List UInt8 :=
  ((List.range (radiusMaxStringLength - 3 - s.length)).map fun i => UInt8.ofNat (ec.rand i).toNat).take
    (m - 1 - s.length)

theorem take_tunnelText {m : ℕ} (hm : s.length < m) :
    (tunnelText ec.rand s).take m = UInt8.ofNat s.length :: (s ++ tunnelPadding ec s m) := by
  obtain ⟨k, rfl⟩ : ∃ k, m = k + 1 := ⟨m - 1, by omega⟩
  rw [tunnelText, take_succ_cons, take_append, take_of_length_le (by omega), tunnelPadding,
    Nat.add_sub_cancel]

variable (ec) in
theorem length_tunnelCipher (md5 : List UInt8 → Digest) {m : ℕ} (hs : s.length ≤ 250)
    (hm : m ≤ 251) : (tunnelCipher md5 ec s m).length = m := by
  have htake : ((tunnelText ec.rand s).take m).length = m := by
    rw [length_take, length_tunnelText ec.rand hs]
    omega
  rw [tunnelCipher, length_chainEncrypt (by rw [htake, authPassLen]; omega), htake]

variable (ec) in
/-- A tunnel password is decrypted, unless the decoder wants zeros behind it. -/
theorem decodeTunnelPassword_tunnelCipher (md5 : List UInt8 → Digest) {m : ℕ} (hm : s.length < m)
    (hmax : m ≤ 251) (h1 : 1 < m) (zeros : Bool) (b : List UInt8) :
    (frRadiusDecodeTunnelPassword md5 ec.secret ec.requestAuthenticator zeros
        (tunnelSalt ec.rand ec.saltOffset s ++ (tunnelCipher md5 ec s m ++ b)) (2 + m)).map
        (fun result => result.1.take result.2) =
      if zeros && (tunnelPadding ec s m).any (· ≠ 0) then none else some s := by
  have hlen := length_tunnelCipher ec md5 (show s.length ≤ 250 by omega) hmax
  obtain ⟨t, ht⟩ := frRadiusDecodeTunnelPassword_eq md5 ec.secret ec.requestAuthenticator
    (length_tunnelSalt ec.rand ec.saltOffset s) (show 1 < (tunnelCipher md5 ec s m).length by omega)
    zeros b
  have hplain := ht ((tunnelText ec.rand s).take m) (by
    rw [hlen, tunnelCipher, chainDecrypt_chainEncrypt]
    rw [length_take, authPassLen]
    omega)
  have hbyte : (byte ((tunnelText ec.rand s).take m) 0).toNat = s.length := by
    rw [take_tunnelText hm]
    exact UInt8.toNat_ofNat_of_lt' (show s.length < 256 by omega)
  have hrest : ((tunnelText ec.rand s).take m).drop 1 = s ++ tunnelPadding ec s m := by
    rw [take_tunnelText hm]
    rfl
  have hslice : slice (s ++ tunnelPadding ec s m ++ t) s.length (m - 1 - s.length) =
      tunnelPadding ec s m := by
    rw [append_assoc, slice, drop_left]
    refine take_left' ?_
    rw [tunnelPadding, length_take, length_map, length_range, radiusMaxStringLength]
    omega
  rw [hlen, hbyte, hrest, if_neg (by omega), hslice] at hplain
  rw [hplain]
  split
  · rfl
  · rw [Option.map_some, append_assoc, take_set_of_le le_rfl, take_left]

/-- What is known about the attribute of a tunnel password. -/
structure TunnelDa (dict : Dict Da) (da : Da) (s : List UInt8) : Prop where
  type : dict.type da = .string
  abinary : (dict.flags da).abinary = false
  length : (dict.flags da).length = 0 ∨ (dict.flags da).length = s.length
  hasTag : (dict.flags da).hasTag = true
  encrypt : (dict.flags da).encrypt = .tunnelPassword

section Encode

variable {t : List UInt8} (hda : TunnelDa dict da s) (hs : s ≠ []) (hmax : s.length ≤ 249)
  (hallow : ec.disallowTunnelPasswords = false)
  (ht : tagBytes ec.tag (dict.flags da) (.string s : Value V) = t)
  (hroom : t.length + s.length ≤ room)

include hda hs hmax hallow ht hroom

variable (ep ec) in
omit [DecidableEq Da] in
theorem encodeLeaf_tunnelPassword (hfits : s.length < cipherLength s.length (room - t.length - 1)) :
    ∃ ec', encodeLeaf dict ep ec da (.string s) room =
      .ok (t ++ (0 :: (tunnelSalt ec.rand ec.saltOffset s ++
        tunnelCipher ep.md5 ec s (cipherLength s.length (room - t.length - 1)))), ec') := by
  have hwrite : valueToNetwork ep (dict.flags da) (.string s) (room - t.length) = .ok s :=
    valueToNetwork_string hda.abinary hda.length (by omega)
  obtain ⟨ec', hencrypt⟩ : ∃ ec', encryptValue ep ec (dict.flags da) s (room - t.length) =
      .ok (some ⟨0 :: (tunnelSalt ec.rand ec.saltOffset s ++
        tunnelCipher ep.md5 ec s (cipherLength s.length (room - t.length - 1))), 1, ec'⟩) := by
    have hlen : s.length ≤ radiusMaxStringLength - 3 := hmax.trans (by decide)
    simp only [encryptValue, hda.encrypt, hallow, hda.hasTag, Bool.false_eq_true, if_false, if_true,
      length_singleton, encodeTunnelPassword_eq _ _ _ hlen rfl hfits]
    exact ⟨_, rfl⟩
  exact ⟨_, encodeLeaf_eq (e := ⟨_, 1, ec'⟩) ht (by omega) hwrite hs hencrypt rfl⟩

omit [DecidableEq Da] in
theorem encodeLeaf_tunnelPassword_tooLong
    (hfits : cipherLength s.length (room - t.length - 1) ≤ s.length) :
    encodeLeaf dict ep ec da (.string s) room = .error .tooLong := by
  have hwrite : valueToNetwork ep (dict.flags da) (.string s) (room - t.length) = .ok s :=
    valueToNetwork_string hda.abinary hda.length (by omega)
  have hnone : encodeTunnelPassword ep.md5 ec.secret ec.requestAuthenticator ec.rand ec.saltOffset s
      (room - t.length - 1) = none := by
    obtain ⟨hlt, -⟩ := lt_encryptedLength (n := s.length) (hmax.trans (by decide))
    unfold cipherLength radiusMaxStringLength at hfits
    unfold encodeTunnelPassword radiusMaxStringLength
    simp only
    rw [if_neg (by omega), if_pos (by omega)]
  unfold encodeLeaf
  simp only [ht, if_neg (show ¬room < t.length by omega), hwrite, encodeOk_bind, if_neg hs,
    encryptValue, hda.encrypt, hallow, hda.hasTag, Bool.false_eq_true, if_false, if_true,
    length_singleton, hnone]
  rfl

end Encode

section Decode

variable (hda : TunnelDa dict da s) {m : ℕ} (hm : s.length < m) (hmax : m ≤ 250)

include hda hm hmax

omit [DecidableEq Da] in
theorem decryptValue_tunnelPassword (hagree : Agree ep dp ec dc) (hs : s ≠ []) :
    decryptValue dp dc (dict.flags da) (3 + m)
        (tunnelSalt ec.rand ec.saltOffset s ++ tunnelCipher ep.md5 ec s m) =
      if dc.tunnelPasswordZeros && (tunnelPadding ec s m).any (· ≠ 0) then none else some s := by
  have hpos : 0 < s.length := length_pos_iff.mpr hs
  have hlen : (tunnelSalt ec.rand ec.saltOffset s ++ tunnelCipher ep.md5 ec s m).length = 2 + m := by
    rw [length_append, length_tunnelSalt, length_tunnelCipher ec _ (by omega) (by omega)]
  have hplain := decodeTunnelPassword_tunnelCipher ec ep.md5 hm (by omega) (by omega)
    dc.tunnelPasswordZeros
  simp only [decryptValue, hda.encrypt, hagree.vector, hagree.md5, hagree.secret, hlen, bufferOf,
    append_assoc, hplain, if_neg (show ¬253 < 3 + m by omega)]

end Decode

/-- Without a tag byte of its own, a tunnel password comes back if the decoder does not ask for
zeros behind it, or if there is nothing behind it. -/
theorem tunnelPassword_roundTrips (hda : TunnelDa dict da s) (hs : s ≠ []) (hmax : s.length ≤ 249)
    (hallow : ec.disallowTunnelPasswords = false) (hagree : Agree ep dp ec dc) (htag : ec.tag = 0)
    (hvalid : tagValid (byte s 0) = false) (hroom : s.length + 4 ≤ room) (hroom' : room ≤ 253)
    (hzeros : dc.tunnelPasswordZeros = false ∨ cipherLength s.length (room - 1) = s.length + 1) :
    RoundTrips dict ep dp ec dc 0 da (.string s) room := by
  have ht : tagBytes ec.tag (dict.flags da) (.string s : Value V) = [] := by
    simp [tagBytes, hda.hasTag, htag, hvalid]
  obtain ⟨m, hm⟩ : ∃ m, cipherLength s.length (room - 1) = m := ⟨_, rfl⟩
  have hlt : s.length < m ∧ m ≤ 250 := by
    obtain ⟨hlt, -⟩ := lt_encryptedLength (n := s.length) (hmax.trans (by decide))
    rw [← hm]
    unfold cipherLength radiusMaxStringLength
    omega
  obtain ⟨ec', hencode⟩ := encodeLeaf_tunnelPassword ep ec hda hs hmax hallow ht
    (show ([] : List UInt8).length + s.length ≤ room by rw [length_nil]; omega)
    (by rw [length_nil, Nat.sub_zero, hm]; exact hlt.1)
  rw [length_nil, Nat.sub_zero, hm, nil_append] at hencode
  have hlen : (0 :: (tunnelSalt ec.rand ec.saltOffset s ++ tunnelCipher ep.md5 ec s m)).length =
      3 + m := by
    rw [length_cons, length_append, length_tunnelSalt,
      length_tunnelCipher ec _ (by omega) (by omega)]
    omega
  refine ⟨_, ec', hencode, cons_ne_nil _ _, fun rest st => ?_⟩
  have hleaf : (dict.type da).isLeaf = true := by rw [hda.type]; rfl
  have hsplit := splitTag_string (b := 0) hda.hasTag (by decide)
    (show (tunnelSalt ec.rand ec.saltOffset s ++ tunnelCipher ep.md5 ec s m).length < 255 by
      rw [length_cons] at hlen
      omega)
  have hdecrypt := decryptValue_tunnelPassword hda hlt.1 hlt.2 hagree hs
  have hpadding : (dc.tunnelPasswordZeros && (tunnelPadding ec s m).any (· ≠ 0)) = false := by
    rcases hzeros with h | h
    · rw [h]
      rfl
    · have hnone : tunnelPadding ec s m = [] := by
        rw [tunnelPadding, ← hm, h, Nat.add_sub_cancel, Nat.sub_self, take_zero]
      rw [hnone, any_nil, Bool.and_false]
  rw [hpadding, ← hlen] at hdecrypt
  have hvalue : decodeLeaf dict dp da s = some (.string s) := by
    simp only [decodeLeaf, hda.type, hda.abinary, Bool.false_eq_true, if_false,
      variableFromNetwork_eq hda.length, Option.map_some]
  rw [← hda.type] at hsplit
  rw [frRadiusDecodePairValue_leaf hleaf (cons_ne_nil _ _) (by omega),
    decodeLeafValue_eq hsplit hdecrypt hvalue]

section Failure

theorem not_roundTrips_of_raw {out p : List UInt8} {ec' : EncodeCtx}
    (htype : dict.type da = .string) (hlen : out.length ≤ 253) (hne : out ≠ [])
    (hencode : encodeLeaf dict ep ec da (.string s) room = .ok (out, ec'))
    (htag : splitTag (dict.flags da) (dict.type da) out = some (tag, p))
    (hdecrypt : decryptValue dp dc (dict.flags da) out.length p = none) :
    ¬RoundTrips dict ep dp ec dc tag da (.string s) room := by
  rintro ⟨bytes, _, hbytes, -, hdecode⟩
  rw [hencode] at hbytes
  cases hbytes
  have hleaf : (dict.type da).isLeaf = true := by rw [htype]; rfl
  have hlists := hdecode [] ⟨[], []⟩
  rw [frRadiusDecodePairValue_leaf hleaf hne (by omega), decodeLeafValue] at hlists
  simp only [htag, hdecrypt] at hlists
  exact placed_ne_raw dict tag da _ _ _ (congrArg Prod.snd hlists)

variable (hda : TunnelDa dict da s) (hs : s ≠ []) (hmax : s.length ≤ 249)

include hda hs hmax

/-- With a tag, or with a zero for it, the salt is one byte further behind than the decoder
looks for it. -/
theorem tunnelPassword_not_roundTrips (htag : tag < 0x20) (h : tag ≠ 0 ∨ tagValid (byte s 0) = true)
    (zeros : Bool) :
    ¬RoundTrips dict EncodeParams.sample DecodeParams.sample { EncodeCtx.sample with tag := tag }
      { DecodeCtx.sample with tunnelPasswordZeros := zeros } tag da (.string s : Value V) 253 := by
  have ht : tagBytes tag (dict.flags da) (.string s : Value V) = [tag] := by
    simp only [tagBytes, hda.hasTag, Bool.not_true, Bool.false_eq_true, if_false]
    split
    · rfl
    · next hzero =>
      rw [not_not.mp hzero, if_pos (h.resolve_left hzero)]
  have hroom : [tag].length + s.length ≤ 253 := by
    rw [length_singleton]
    omega
  obtain ⟨m, hm⟩ : ∃ m, cipherLength s.length 251 = m := ⟨_, rfl⟩
  have hm' : m ≤ 249 := by
    rw [← hm]
    unfold cipherLength radiusMaxStringLength
    omega
  rcases Nat.lt_or_ge s.length m with hfits | hfits
  · obtain ⟨ec', hencode⟩ := encodeLeaf_tunnelPassword (EncodeParams.sample : EncodeParams Da V)
      { sample with tag := tag } hda hs hmax rfl ht hroom (hm ▸ hfits)
    rw [show 253 - [tag].length - 1 = 251 from rfl, hm] at hencode
    obtain ⟨b, hsalt⟩ : ∃ b, tunnelSalt sample.rand sample.saltOffset s =
      [b, 255] := ⟨_, rfl⟩
    obtain ⟨cipher, hcipher⟩ : ∃ cipher, tunnelCipher (EncodeParams.sample : EncodeParams Da V).md5
      { sample with tag := tag } s m = cipher := ⟨_, rfl⟩
    have hlen : cipher.length = m := by
      rw [← hcipher]
      exact length_tunnelCipher _ _ (by omega) (by omega)
    have hpos : 0 < s.length := length_pos_iff.mpr hs
    rw [hsalt, hcipher] at hencode
    change encodeLeaf _ _ _ _ _ _ = .ok (tag :: 0 :: b :: 255 :: cipher, ec') at hencode
    have hp : (0 :: b :: 255 :: cipher).length = 3 + cipher.length := by
      simp only [length_cons]
      omega
    have hout : (tag :: 0 :: b :: 255 :: cipher).length = 4 + cipher.length := by
      rw [length_cons, hp]
      omega
    have hsplit : splitTag (dict.flags da) (dict.type da) (tag :: 0 :: b :: 255 :: cipher) = _ :=
      hda.type ▸ splitTag_string hda.hasTag htag (by omega)
    refine not_roundTrips_of_raw hda.type (by omega) (cons_ne_nil _ _) hencode hsplit ?_
    simp only [decryptValue, hda.encrypt, if_neg (show ¬253 < 4 + cipher.length by omega), hout, hp,
      bufferOf, cons_append, DecodeCtx.sample, DecodeParams.sample]
    unfold frRadiusDecodeTunnelPassword
    -- the length is taken from the second byte of the salt
    have hbyte : ∀ rest, (byte (0 :: b :: 255 :: rest) 2 ^^^ byte Digest.zero.val 0).toNat = 255 :=
      fun _ => show ((255 : UInt8) ^^^ byte Digest.zero.val 0).toNat = 255 by decide
    simp only [hbyte]
    rw [if_neg (by omega), if_neg (by omega), if_pos (by omega)]
    rfl
  · rintro ⟨bytes, ec', hbytes, -⟩
    rw [encodeLeaf_tunnelPassword_tooLong hda hs hmax rfl ht hroom (hm ▸ hfits)] at hbytes
    cases hbytes

/-- The random bytes behind the password are not zeros. -/
theorem tunnelPassword_not_roundTrips_zeros (hvalid : tagValid (byte s 0) = false)
    (hpadding : cipherLength s.length 252 ≠ s.length + 1) :
    ¬RoundTrips dict EncodeParams.sample DecodeParams.sample { EncodeCtx.sample with tag := 0 }
      { DecodeCtx.sample with tunnelPasswordZeros := true } 0 da (.string s : Value V) 253 := by
  have ht : tagBytes 0 (dict.flags da) (.string s : Value V) = [] := by
    simp [tagBytes, hda.hasTag, hvalid]
  obtain ⟨m, hm⟩ : ∃ m, cipherLength s.length 252 = m := ⟨_, rfl⟩
  have hlt : s.length + 1 < m ∧ m ≤ 250 := by
    obtain ⟨hlt, -⟩ := lt_encryptedLength (n := s.length) (hmax.trans (by decide))
    rw [hm] at hpadding
    unfold cipherLength radiusMaxStringLength at hm
    omega
  obtain ⟨ec', hencode⟩ := encodeLeaf_tunnelPassword (EncodeParams.sample : EncodeParams Da V)
    { sample with tag := 0 } hda hs hmax rfl ht
    (show ([] : List UInt8).length + s.length ≤ 253 by rw [length_nil]; omega)
    (show s.length < cipherLength s.length 252 by omega)
  rw [show 253 - ([] : List UInt8).length - 1 = 252 from rfl, hm, nil_append] at hencode
  have hlen := length_tunnelCipher { sample with tag := 0 }
    (EncodeParams.sample : EncodeParams Da V).md5 (show s.length ≤ 250 by omega)
    (show m ≤ 251 by omega)
  have hdecrypt := decryptValue_tunnelPassword hda (by omega) hlt.2
    (⟨rfl, rfl, rfl⟩ : Agree (EncodeParams.sample : EncodeParams Da V) DecodeParams.sample
      { sample with tag := 0 } { DecodeCtx.sample with tunnelPasswordZeros := true }) hs
  have hpad : (tunnelPadding { sample with tag := 0 } s m).any (· ≠ 0) = true := by
    obtain ⟨k, hk⟩ : ∃ k, radiusMaxStringLength - 3 - s.length = k + 1 :=
      ⟨249 - s.length, by rw [radiusMaxStringLength]; omega⟩
    obtain ⟨j, hj⟩ : ∃ j, m - 1 - s.length = j + 1 := ⟨m - 2 - s.length, by omega⟩
    rw [tunnelPadding, hk, hj, range_succ_eq_map]
    rfl
  have hout : (0 :: (tunnelSalt sample.rand sample.saltOffset s ++
      tunnelCipher (EncodeParams.sample : EncodeParams Da V).md5 { sample with tag := 0 }
        s m)).length = 3 + m := by
    rw [length_cons, length_append, length_tunnelSalt, hlen]
    omega
  have hsplit : splitTag (dict.flags da) (dict.type da) (0 :: (tunnelSalt sample.rand
      sample.saltOffset s ++ tunnelCipher (EncodeParams.sample : EncodeParams Da V).md5
        { sample with tag := 0 } s m)) = _ :=
    hda.type ▸ splitTag_string hda.hasTag (by decide) (by rw [length_cons] at hout; omega)
  rw [hpad] at hdecrypt
  exact not_roundTrips_of_raw hda.type (by rw [hout]; omega) (cons_ne_nil _ _) hencode hsplit
    (hout ▸ hdecrypt)

end Failure

theorem cipherLength_eq_iff (hmax : s.length ≤ 249) :
    cipherLength s.length 252 = s.length + 1 ↔ s.length % 16 = 15 ∨ s.length = 249 := by
  unfold cipherLength encryptedLength roundUp authPassLen radiusMaxStringLength
  omega

/-- Tunnel passwords come back, whatever the digest, the secret, the authenticator and the random
numbers are, only without a tag, and if they do not begin with what looks like one. If the
decoder asks for zeros behind the password there may be nothing behind it. -/
theorem tunnelPassword_survives_iff (hda : TunnelDa dict da s) (hs : 1 ≤ s.length ∧ s.length ≤ 249)
    (htag : tag < 0x20) (zeros : Bool) :
    (∀ (ep : EncodeParams Da V) (dp : DecodeParams Da V) (ec : EncodeCtx) (dc : DecodeCtx),
      Agree ep dp ec dc → ec.disallowTunnelPasswords = false → dc.tunnelPasswordZeros = zeros →
        Survives dict ep dp ec dc tag da (.string s) (s.length + 4)) ↔
      tag = 0 ∧ tagValid (byte s 0) = false ∧
        (zeros = false ∨ s.length % 16 = 15 ∨ s.length = 249) := by
  have hne : s ≠ [] := length_pos_iff.mp hs.1
  have hempty : (Value.string s : Value V).isEmpty = false := decide_eq_false hne
  rw [← cipherLength_eq_iff hs.2]
  constructor
  · intro h
    have hsample := h EncodeParams.sample DecodeParams.sample sample
      { DecodeCtx.sample with tunnelPasswordZeros := zeros } ⟨rfl, rfl, rfl⟩ rfl rfl
    have htrip := hsample.nested 253 (by omega) le_rfl
    have hplain : tag = 0 ∧ tagValid (byte s 0) = false := by
      by_contra hcontra
      refine tunnelPassword_not_roundTrips hda hne hs.2 htag ?_ zeros htrip
      rw [Decidable.not_and_iff_not_or_not, Bool.not_eq_false] at hcontra
      exact hcontra
    obtain ⟨rfl, hvalid⟩ := hplain
    refine ⟨rfl, hvalid, ?_⟩
    by_contra hcontra
    obtain ⟨hzeros, hpadding⟩ := not_or.mp hcontra
    rw [Bool.not_eq_false] at hzeros
    subst hzeros
    exact tunnelPassword_not_roundTrips_zeros hda hne hs.2 hvalid hpadding htrip
  · rintro ⟨rfl, hvalid, hzeros⟩ ep dp ec dc hagree hallow rfl
    refine (survives_iff hempty (fun _ h => by cases h) htag (by omega)).mpr fun room hroom hroom' => ?_
    refine tunnelPassword_roundTrips hda hne hs.2 hallow ⟨hagree.md5, hagree.secret, hagree.vector⟩ rfl
      hvalid hroom hroom' (hzeros.imp_right fun h => ?_)
    unfold cipherLength encryptedLength roundUp authPassLen radiusMaxStringLength at *
    omega

theorem tunnelPassword_survives_iff_hello :
    (∀ (ep : EncodeParams SampleDa Empty) (dp : DecodeParams SampleDa Empty) (ec : EncodeCtx)
      (dc : DecodeCtx), Agree ep dp ec dc → ec.disallowTunnelPasswords = false →
        dc.tunnelPasswordZeros = false →
          Survives Dict.sample ep dp ec dc 0 (.child .root 69) (.string [104, 101, 108, 108, 111]) 9) ↔
      (0 : UInt8) = 0 ∧ tagValid (byte [104, 101, 108, 108, 111] 0) = false ∧
        (false = false ∨ [104, 101, 108, 108, 111].length % 16 = 15 ∨
          [104, 101, 108, 108, 111].length = 249) :=
  tunnelPassword_survives_iff ⟨rfl, rfl, .inl rfl, rfl, rfl⟩ (by decide) (by decide) false

/-- The password "a" with the tag 5: there is a zero between the tag and the salt, and what comes
back is a raw attribute. -/
theorem tunnelPassword_tag_lost :
    (frRadiusEncodePair Dict.sample EncodeParams.sample EncodeCtx.sample
      [.group (.tagGroup 5) [.leaf (.child .root 69) (.string [97] : Value Empty)]] 255).map (·.1) =
        .ok ([69, 22, 5, 0, 128, 255, 1, 97] ++ replicate 14 255) ∧
    frRadiusDecodePair Dict.sample DecodeParams.sample DecodeCtx.sample
        ([69, 22, 5, 0, 128, 255, 1, 97] ++ replicate 14 255) ⟨[], []⟩ =
      (some 22, ⟨[.leaf (.rawOf (.child .root 69))
        (.octets ([5, 0, 128, 255, 1, 97] ++ replicate 14 255) : Value Empty)], [(5, [])]⟩) := by
  constructor <;> rfl

end TunnelPassword

end FreeRadius.Radius
