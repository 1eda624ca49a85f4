import FreeRadius.Radius.Model

/-!
# What verification checks

A packet that `fr_radius_ok` accepts is a list of attributes. On such a packet
`fr_radius_verify` restores what it has written, and succeeds if both
authenticators are right.
-/

namespace FreeRadius.Radius

open Library

section Attributes

/-- An attribute of a packet. -/
structure Attribute where
  offset : ℕ
  type : UInt8
  length : ℕ

def attributesFrom (packet : List UInt8) (stop : ℕ) : ℕ → ℕ → List Attribute
  | 0, _ => []
  | rounds + 1, offset =>
    if stop ≤ offset then []
    else
      let length := (byte packet (offset + 1)).toNat
      ⟨offset, byte packet offset, length⟩ :: attributesFrom packet stop rounds (offset + length)

def attributes (packet : List UInt8) : List Attribute :=
  attributesFrom packet (lengthField packet) (lengthField packet) radiusHeaderLength

/-- The offset of the first Message-Authenticator. -/
def firstMa (attrs : List Attribute) : Option ℕ :=
  (attrs.find? fun a => a.type = attrMessageAuthenticator).map Attribute.offset

def hasProxyState (attrs : List Attribute) : Bool := attrs.any fun a => a.type = attrProxyState

variable {packet : List UInt8} {stop rounds off : ℕ} {seen seen' : Seen} {p : Bool}

/-- What the loops see in a packet that `fr_radius_ok` accepts. -/
structure Scanned (packet : List UInt8) (stop rounds off : ℕ) (p : Bool) : Prop where
  find : ∃ p', findMessageAuthenticator packet stop rounds off p =
    .ok (firstMa (attributesFrom packet stop rounds off), p') ∧
    (firstMa (attributesFrom packet stop rounds off) = none →
      p' = (p || hasProxyState (attributesFrom packet stop rounds off)))
  within : ∀ msg, firstMa (attributesFrom packet stop rounds off) = some msg →
    off ≤ msg ∧ msg + 18 ≤ stop

/-- What the search finds is the first Message-Authenticator. -/
theorem scanned_of_find {found : Option ℕ} {q : Bool}
    (h : findMessageAuthenticator packet stop rounds off p = .ok (found, q))
    (hfound : ∀ msg, found = some msg → msg + 18 ≤ stop) :
    Scanned packet stop rounds off p ∧ firstMa (attributesFrom packet stop rounds off) = found := by
  induction rounds generalizing off p with
  | zero =>
    cases h
    exact ⟨⟨⟨_, rfl, fun _ => (Bool.or_false _).symm⟩, fun _ h => nomatch h⟩, rfl⟩
  | succ rounds ih =>
    have hfind := h
    rw [findMessageAuthenticator] at h
    by_cases hend : stop ≤ off
    · rw [if_pos hend] at h
      cases h
      have hattrs : attributesFrom packet stop (rounds + 1) off = [] := by
        rw [attributesFrom, if_pos hend]
      refine ⟨⟨⟨q, ?_, fun _ => ?_⟩, fun msg hmsg => ?_⟩, by rw [hattrs]; rfl⟩
      · rw [hfind, hattrs]
        rfl
      · rw [hattrs]
        exact (Bool.or_false _).symm
      · rw [hattrs] at hmsg
        cases hmsg
    rw [if_neg hend] at h
    dsimp only at h
    have hattrs : attributesFrom packet stop (rounds + 1) off =
        ⟨off, byte packet off, (byte packet (off + 1)).toNat⟩ ::
          attributesFrom packet stop rounds (off + (byte packet (off + 1)).toNat) := by
      rw [attributesFrom, if_neg hend]
    split_ifs at h with hheader hma hshort hover hlength
    · have hfirst : firstMa (attributesFrom packet stop (rounds + 1) off) =
          firstMa (attributesFrom packet stop rounds (off + (byte packet (off + 1)).toNat)) := by
        rw [hattrs, firstMa, List.find?_cons_of_neg (by simpa using hma)]
        rfl
      obtain ⟨⟨⟨p', hfind', hproxy⟩, hwithin⟩, heq⟩ := ih h
      refine ⟨⟨⟨p', ?_, fun hnone => ?_⟩, fun msg hmsg => ?_⟩, hfirst.trans heq⟩
      · rw [hfind, hfirst, ← hfind', h]
      · rw [hproxy (hfirst ▸ hnone), hattrs, Bool.or_assoc]
        rfl
      · have := hwithin msg (hfirst ▸ hmsg)
        omega
    · cases h
      have hfirst : firstMa (attributesFrom packet stop (rounds + 1) off) = some off := by
        rw [hattrs, firstMa, List.find?_cons_of_pos (by simpa using hma)]
        rfl
      refine ⟨⟨⟨_, hfirst ▸ hfind, fun hnone => ?_⟩, fun msg hmsg => ?_⟩, hfirst⟩
      · exact absurd (hfirst.symm.trans hnone) (by simp)
      · cases hfirst.symm.trans hmsg
        exact ⟨Nat.le_refl _, hfound off rfl⟩

theorem scanned_of_check {last : ℕ}
    (h : checkAttributes packet stop rounds off seen = .ok (last, seen')) :
    Scanned packet stop rounds off p := by
  suffices hfind : ∃ found q, findMessageAuthenticator packet stop rounds off p = .ok (found, q) ∧
      ∀ msg, found = some msg → msg + 18 ≤ stop by
    obtain ⟨found, q, hfind, hfound⟩ := hfind
    exact (scanned_of_find hfind hfound).1
  induction rounds generalizing off seen p with
  | zero => exact ⟨none, p, rfl, nofun⟩
  | succ rounds ih =>
    rw [checkAttributes] at h
    rw [findMessageAuthenticator]
    by_cases hend : stop ≤ off
    · exact ⟨none, p, if_pos hend, nofun⟩
    rw [if_neg hend] at h ⊢
    dsimp only at h ⊢
    split_ifs at h with hheader htype hshort hover hlength
    rw [if_neg hheader]
    by_cases hma : byte packet off = attrMessageAuthenticator
    · have hsize : (byte packet (off + 1)).toNat = 18 := by
        by_contra hne
        exact hlength ⟨hma, hne⟩
      rw [if_neg (not_not.mpr hma), if_neg (by omega)]
      refine ⟨some off, p, rfl, ?_⟩
      rintro _ ⟨⟩
      omega
    · rw [if_pos hma, if_neg hshort, if_neg hover]
      exact ih h

/-- What acceptance says about a packet. -/
structure Accepted (packet : List UInt8) : Prop where
  code_ne : ¬(byte packet 0 = 0 ∨ codeMax ≤ byte packet 0)
  header_le : radiusHeaderLength ≤ lengthField packet
  length_le : lengthField packet ≤ packet.length
  scanned : Scanned packet (lengthField packet) (lengthField packet) radiusHeaderLength false

theorem accepted_of_ok {maxAttributes n : ℕ} {requireMa : Bool}
    (h : frRadiusOk packet maxAttributes requireMa = .ok n) : Accepted packet := by
  rw [frRadiusOk] at h
  dsimp only at h
  split_ifs at h with hmin hcode hfield hmismatch
  split at h
  · cases h
  · rename_i last seen hcheck
    exact ⟨hcode, by omega, by omega, scanned_of_check hcheck⟩

end Attributes

section Specification

variable (hmacMd5 md5 : List UInt8 → List UInt8 → Digest)

/-- The packet code is one that can be signed with this vector. -/
def CanSign (code : UInt8) (vector : Option Digest) : Prop :=
  match authenticatorRule code with
  | .zeros => True
  | .original => vector.isSome
  | .random => True
  | .unknown => False

/-- The authenticator as it is while the packet is signed. -/
def signingVector (packet : List UInt8) (vector : Option Digest) : List UInt8 :=
  match authenticatorRule (byte packet 0), vector with
  | .zeros, _ => Digest.zero.val
  | .original, some vector => vector.val
  | _, _ => authenticator packet

/-- The packet with the authenticator as it is while the packet is signed. -/
def forSigning (packet : List UInt8) (vector : Option Digest) : List UInt8 :=
  splice packet 4 (signingVector packet vector)

/-- An Access-Request without a Message-Authenticator does not need one. -/
def Required (packet : List UInt8) (requireMessageAuthenticator limitProxyState : Bool) : Prop :=
  byte packet 0 = codeAccessRequest → firstMa (attributes packet) = none →
    requireMessageAuthenticator = false ∧
      (limitProxyState = true → hasProxyState (attributes packet) = false)

instance (packet : List UInt8) (requireMa limit : Bool) :
    Decidable (Required packet requireMa limit) :=
  inferInstanceAs (Decidable (_ → _ → _ ∧ (_ → _)))

/-- What makes a packet valid. -/
structure Valid (packet : List UInt8) (vector : Option Digest) (secret : List UInt8)
    (requireMessageAuthenticator limitProxyState : Bool) : Prop where
  canSign : CanSign (byte packet 0) vector
  required : Required packet requireMessageAuthenticator limitProxyState
  messageAuthenticator : ∀ msg, firstMa (attributes packet) = some msg →
    slice packet (msg + 2) radiusAuthVectorLength =
      (hmacMd5 ((splice (forSigning packet vector) (msg + 2) Digest.zero.val).take
        (lengthField packet)) secret).val
  authenticator : byte packet 0 ≠ codeAccessRequest → byte packet 0 ≠ codeStatusServer →
    authenticator packet = (md5 ((forSigning packet vector).take (lengthField packet)) secret).val

/-- Verification leaves the packet as it is, and succeeds if the packet is valid. -/
def Exact (packet : List UInt8) (vector : Option Digest) (secret : List UInt8)
    (requireMessageAuthenticator limitProxyState : Bool) : Prop :=
  let result := frRadiusVerify hmacMd5 md5 packet vector secret requireMessageAuthenticator
    limitProxyState
  result.1 = packet ∧ (result.2 = .ok () ↔
    Valid hmacMd5 md5 packet vector secret requireMessageAuthenticator limitProxyState)

end Specification

variable {code : UInt8} {off msg : ℕ} {signed : List UInt8}

section Rules

theorem messageAuthenticatorRule_eq (h : code ≠ codeProtocolError) :
    messageAuthenticatorRule code = authenticatorRule code := by
  have hmem : code ∈ [2, 3, 11, 5, 41, 42, 44, 45, codeProtocolError] ↔
      code ∈ ([2, 3, 11, 5, 41, 42, 44, 45] : List UInt8) := by
    simp [h]
  rw [messageAuthenticatorRule, authenticatorRule]
  simp only [hmem]

theorem authenticatorRule_eq_random :
    authenticatorRule code = .random ↔ code = codeAccessRequest ∨ code = codeStatusServer := by
  rw [authenticatorRule]
  constructor
  · intro h
    split_ifs at h with h₁ h₂ h₃
    simpa using h₃
  · rintro (rfl | rfl) <;> decide

variable {packet : List UInt8} {vector : Option Digest}

theorem byte_splice {new : List UInt8} (h : off + new.length ≤ packet.length) (hoff : 0 < off) :
    byte (splice packet off new) 0 = byte packet 0 := by
  rw [byte, byte, List.getD_eq_getElem?_getD, List.getD_eq_getElem?_getD,
    getElem?_splice_of_lt h hoff]

section

variable (h : 20 ≤ packet.length)

include h

theorem length_authenticator : (authenticator packet).length = radiusAuthVectorLength :=
  length_slice (show 4 + radiusAuthVectorLength ≤ packet.length from h)

theorem splice_authenticator : splice packet 4 (authenticator packet) = packet :=
  splice_slice (show 4 + radiusAuthVectorLength ≤ packet.length from h)

theorem length_signingVector : (signingVector packet vector).length = radiusAuthVectorLength := by
  unfold signingVector
  split
  · exact Digest.zero.property
  · rename_i vector _
    exact vector.property
  · exact length_authenticator h

theorem forSigning_of_random (hrule : authenticatorRule (byte packet 0) = .random) :
    forSigning packet vector = packet := by
  unfold forSigning signingVector
  rw [hrule]
  exact splice_authenticator h

theorem applyRule_of_canSign (hcan : CanSign (byte packet 0) vector) :
    applyRule (authenticatorRule (byte packet 0)) packet vector =
      .ok (forSigning packet vector) := by
  rw [CanSign] at hcan
  unfold forSigning signingVector
  cases hrule : authenticatorRule (byte packet 0) with
  | zeros => rfl
  | original =>
    rw [hrule] at hcan
    obtain ⟨v, rfl⟩ := Option.isSome_iff_exists.mp hcan
    rfl
  | random => exact congrArg Except.ok (splice_authenticator h).symm
  | unknown =>
    rw [hrule] at hcan
    exact hcan.elim

end

/-- With a Message-Authenticator in place, the second `switch` changes nothing. -/
theorem applyRule_again (hcan : CanSign (byte packet 0) vector) {d : List UInt8} (hoff : 20 ≤ off)
    (hd : off + d.length ≤ packet.length) :
    applyRule (authenticatorRule (byte packet 0)) (splice (forSigning packet vector) off d) vector =
      .ok (splice (forSigning packet vector) off d) := by
  have hset : ∀ v : Digest, setAuthenticator (splice (splice packet 4 v.val) off d) v =
      splice (splice packet 4 v.val) off d := by
    intro v
    have hv : 4 + v.val.length ≤ off := by
      rw [v.property]
      exact hoff
    rw [setAuthenticator, splice_comm hv hd, splice_splice (by rw [length_splice hd]; omega) rfl]
  rw [CanSign] at hcan
  unfold forSigning signingVector
  cases hrule : authenticatorRule (byte packet 0) with
  | zeros => exact congrArg Except.ok (hset Digest.zero)
  | original =>
    rw [hrule] at hcan
    obtain ⟨v, rfl⟩ := Option.isSome_iff_exists.mp hcan
    exact congrArg Except.ok (hset v)
  | random => rfl
  | unknown =>
    rw [hrule] at hcan
    exact hcan.elim

theorem applyRule_of_not_canSign (hcan : ¬CanSign (byte packet 0) vector) :
    ∃ e, applyRule (authenticatorRule (byte packet 0)) packet vector = .error e := by
  rw [CanSign] at hcan
  cases hrule : authenticatorRule (byte packet 0) with
  | zeros =>
    rw [hrule] at hcan
    exact absurd trivial hcan
  | original =>
    rw [hrule] at hcan
    cases vector with
    | none => exact ⟨_, rfl⟩
    | some v => exact absurd rfl hcan
  | random =>
    rw [hrule] at hcan
    exact absurd trivial hcan
  | unknown => exact ⟨_, rfl⟩

end Rules

section Sign

variable (hmacMd5 md5 : List UInt8 → List UInt8 → Digest) {packet secret : List UInt8}
  {vector : Option Digest}

/-- The authenticator that signing puts into a packet. -/
def signedAuthenticator (packet signed secret : List UInt8) : List UInt8 :=
  if authenticatorRule (byte packet 0) = .random then authenticator packet
  else (md5 (signed.take (lengthField packet)) secret).val

theorem length_signedAuthenticator (h : 20 ≤ packet.length) (signed secret : List UInt8) :
    (signedAuthenticator md5 packet signed secret).length = radiusAuthVectorLength := by
  rw [signedAuthenticator]
  split
  · exact length_authenticator h
  · exact (md5 _ _).property

/-- The Message-Authenticator that signing puts into a packet. -/
def signedMessageAuthenticator (packet : List UInt8) (vector : Option Digest)
    (secret : List UInt8) (msg : ℕ) : Digest :=
  hmacMd5 ((splice (forSigning packet vector) (msg + 2) Digest.zero.val).take (lengthField packet))
    secret

theorem Accepted.length (h : Accepted packet) : 20 ≤ packet.length := h.header_le.trans h.length_le

theorem frRadiusSign_none (h : Accepted packet) (hsecret : secret.length ≤ 65535)
    (hma : firstMa (attributes packet) = none) (hcan : CanSign (byte packet 0) vector) :
    frRadiusSign hmacMd5 md5 packet vector secret =
      (splice packet 4 (signedAuthenticator md5 packet (forSigning packet vector) secret),
        .ok ()) := by
  obtain ⟨p, hfind, -⟩ := h.scanned.find
  rw [show firstMa (attributesFrom packet _ _ _) = none from hma] at hfind
  have hlen := h.length
  rw [frRadiusSign]
  rw [if_neg (by omega), if_neg (Nat.not_lt.mpr h.header_le), hfind]
  rw [signAuthenticator]
  rw [applyRule_of_canSign hlen hcan]
  dsimp only
  rw [signedAuthenticator]
  split
  · rename_i hrandom
    rw [forSigning_of_random hlen hrandom, splice_authenticator hlen]
  · rw [setAuthenticator, forSigning, splice_splice
      (by rw [length_signingVector hlen]; exact hlen)
      (by rw [length_signingVector hlen]; exact (md5 _ _).property.symm)]

theorem frRadiusSign_some (h : Accepted packet) (hsecret : secret.length ≤ 65535)
    (hma : firstMa (attributes packet) = some msg) (hcan : CanSign (byte packet 0) vector)
    (hcode : byte packet 0 ≠ codeProtocolError) :
    frRadiusSign hmacMd5 md5 packet vector secret =
      (splice (splice packet (msg + 2)
        (signedMessageAuthenticator hmacMd5 packet vector secret msg).val)
        4 (signedAuthenticator md5 packet (splice (forSigning packet vector) (msg + 2)
          (signedMessageAuthenticator hmacMd5 packet vector secret msg).val) secret), .ok ()) := by
  obtain ⟨p, hfind, -⟩ := h.scanned.find
  rw [show firstMa (attributesFrom packet _ _ _) = some msg from hma] at hfind
  have hwithin := h.scanned.within msg hma
  have hlen := h.length
  have hle := h.length_le
  have h20 : radiusHeaderLength = 20 := rfl
  have hvector := @length_signingVector packet vector hlen
  have hzero : Digest.zero.val.length = 16 := rfl
  have hfor : (forSigning packet vector).length = packet.length :=
    length_splice (by rw [hvector]; exact hlen)
  obtain ⟨H, hH⟩ : ∃ H, H = signedMessageAuthenticator hmacMd5 packet vector secret msg := ⟨_, rfl⟩
  have hHlen : H.val.length = 16 := H.property
  have hbyte : byte (splice (forSigning packet vector) (msg + 2) H.val) 0 = byte packet 0 := by
    rw [byte_splice (by omega) (by omega), forSigning, byte_splice (by omega) (by omega)]
  rw [← hH, frRadiusSign]
  rw [if_neg (by omega), if_neg (Nat.not_lt.mpr h.header_le), hfind]
  rw [messageAuthenticatorRule_eq hcode, applyRule_of_canSign hlen hcan]
  dsimp only
  rw [splice_splice (by omega) (hzero.trans (hmacMd5 _ _).property.symm)]
  change signAuthenticator md5 (splice (forSigning packet vector) (msg + 2)
    (signedMessageAuthenticator hmacMd5 packet vector secret msg).val) _ _ _ = _
  rw [← hH, signAuthenticator]
  rw [hbyte, applyRule_again hcan (by omega) (by omega)]
  dsimp only
  rw [signedAuthenticator]
  split
  · rename_i hrandom
    have hauth := length_authenticator hlen
    rw [forSigning_of_random hlen hrandom, ← splice_comm (by omega) (by omega),
      splice_authenticator hlen]
  obtain ⟨D, hD⟩ : ∃ D, D = md5 ((splice (forSigning packet vector) (msg + 2) H.val).take
    (lengthField packet)) secret := ⟨_, rfl⟩
  have hswap : splice (forSigning packet vector) (msg + 2) H.val =
      splice (splice packet (msg + 2) H.val) 4 (signingVector packet vector) :=
    splice_comm (by omega) (by omega)
  have hspliced : (splice packet (msg + 2) H.val).length = packet.length :=
    length_splice (by omega)
  rw [← hD, setAuthenticator, hswap, splice_splice (by omega) (by omega)]

theorem frRadiusSign_error (h : Accepted packet) (hcan : ¬CanSign (byte packet 0) vector ∨
      byte packet 0 = codeProtocolError ∧ (firstMa (attributes packet)).isSome) :
    ∃ e, frRadiusSign hmacMd5 md5 packet vector secret = (packet, .error e) := by
  obtain ⟨p, hfind, -⟩ := h.scanned.find
  rw [frRadiusSign]
  by_cases hsecret : 65535 < secret.length
  · exact ⟨_, by rw [if_pos hsecret]⟩
  rw [if_neg hsecret, if_neg (Nat.not_lt.mpr h.header_le), hfind]
  cases hma : firstMa (attributes packet) with
  | none =>
    have hcan := hcan.resolve_right fun h => by simp [hma] at h
    obtain ⟨e, he⟩ := applyRule_of_not_canSign hcan
    rw [show firstMa (attributesFrom packet _ _ _) = none from hma]
    rw [signAuthenticator]
    rw [he]
    exact ⟨_, rfl⟩
  | some msg =>
    rw [show firstMa (attributesFrom packet _ _ _) = some msg from hma]
    have herror : ∃ e, applyRule (messageAuthenticatorRule (byte packet 0)) packet vector =
        .error e := by
      by_cases hcode : byte packet 0 = codeProtocolError
      · rw [hcode]
        exact ⟨_, rfl⟩
      · rw [messageAuthenticatorRule_eq hcode]
        exact applyRule_of_not_canSign (hcan.resolve_right fun h => hcode h.1)
    obtain ⟨e, he⟩ := herror
    rw [he]
    exact ⟨_, rfl⟩

end Sign

section Compare

variable {packet d H : List UInt8}

/-- Without a Message-Authenticator only the authenticator is compared, and the packet
is as it was before it was signed. -/
theorem compareSigned_none (hlen : 20 ≤ packet.length) (hd : d.length = radiusAuthVectorLength)
    (hrandom : authenticatorRule (byte packet 0) = .random → d = authenticator packet) :
    (compareSigned (splice packet 4 d) none [] (authenticator packet)).1 = packet ∧
      ((compareSigned (splice packet 4 d) none [] (authenticator packet)).2 = .ok () ↔
        d = authenticator packet) := by
  have h16 : radiusAuthVectorLength = 16 := rfl
  have hauth := length_authenticator hlen
  have hkeep := splice_authenticator hlen
  have hback : splice (splice packet 4 d) 4 (authenticator packet) = packet := by
    rw [splice_splice (by omega) (by omega), hkeep]
  have hnew : authenticator (splice packet 4 d) = d := slice_splice_self (by omega) hd
  rw [authenticatorRule_eq_random] at hrandom
  unfold compareSigned
  rw [byte_splice (by omega) (by omega), hnew]
  split_ifs with hcode hne
  · rw [hrandom hcode, hkeep]
    simp
  · exact ⟨hback, by simpa using hne⟩
  · rw [not_not] at hne
    rw [hne, hkeep]
    simp

/-- With a Message-Authenticator both fields are compared, and the packet is as it was
before it was signed. -/
theorem compareSigned_some (hmsg : 20 ≤ msg) (hlen : msg + 18 ≤ packet.length)
    (hd : d.length = radiusAuthVectorLength) (hH : H.length = radiusAuthVectorLength)
    (hrandom : authenticatorRule (byte packet 0) = .random → d = authenticator packet) :
    let result := compareSigned (splice (splice packet (msg + 2) H) 4 d) (some msg)
      (slice packet (msg + 2) radiusAuthVectorLength) (authenticator packet)
    result.1 = packet ∧ (result.2 = .ok () ↔
      H = slice packet (msg + 2) radiusAuthVectorLength ∧ d = authenticator packet) := by
  have h16 : radiusAuthVectorLength = 16 := rfl
  have hspliced : (splice packet (msg + 2) H).length = packet.length := length_splice (by omega)
  have hsame : splice packet (msg + 2) (slice packet (msg + 2) radiusAuthVectorLength) = packet :=
    splice_slice (by omega)
  have hnew :
      slice (splice (splice packet (msg + 2) H) 4 d) (msg + 2) radiusAuthVectorLength = H := by
    rw [slice_splice_of_apart (by omega) (by omega), slice_splice_self (by omega) hH]
  intro result
  by_cases hcompare : H = slice packet (msg + 2) radiusAuthVectorLength
  · have hnone : result = compareSigned (splice packet 4 d) none [] (authenticator packet) := by
      change compareSigned _ _ _ _ = _
      conv_lhs => unfold compareSigned
      dsimp only
      rw [hnew, if_neg (not_not.mpr hcompare), hcompare, hsame]
      rfl
    rw [hnone]
    obtain ⟨hfst, hsnd⟩ := compareSigned_none (by omega) hd hrandom
    exact ⟨hfst, hsnd.trans (and_iff_right hcompare).symm⟩
  · have hold : (slice packet (msg + 2) radiusAuthVectorLength).length = radiusAuthVectorLength :=
      length_slice (by omega)
    have hauth := @length_authenticator packet (by omega)
    have hback : splice (splice (splice packet (msg + 2) H) 4 d) (msg + 2)
        (slice packet (msg + 2) radiusAuthVectorLength) = splice packet 4 d := by
      rw [splice_comm (by omega) (by omega), splice_splice (by omega) (by omega), hsame]
    have herror : result = (packet, .error .maInvalid) := by
      change compareSigned _ _ _ _ = _
      unfold compareSigned
      dsimp only
      rw [hnew, if_pos hcompare, hback, splice_splice (by omega) (by omega),
        splice_authenticator (by omega)]
    rw [herror]
    exact ⟨rfl, by simp [hcompare]⟩

end Compare

section Verify

variable {hmacMd5 md5 : List UInt8 → List UInt8 → Digest} {packet secret : List UInt8}
  {vector : Option Digest} {requireMa limit : Bool}

/-- Once a packet is accepted, the first check that can fail is the one for a missing
Message-Authenticator. -/
theorem frRadiusVerify_eq (h : Accepted packet) :
    frRadiusVerify hmacMd5 md5 packet vector secret requireMa limit =
      if Required packet requireMa limit then
        match frRadiusSign hmacMd5 md5 packet vector secret with
        | (packet, .error _) => (packet, .error .verify)
        | (signed, .ok ()) => compareSigned signed (firstMa (attributes packet))
          ((firstMa (attributes packet)).elim [] fun msg =>
            slice packet (msg + 2) radiusAuthVectorLength) (authenticator packet)
      else (packet, .error .maMissing) := by
  obtain ⟨p, hfind, hproxy⟩ := h.scanned.find
  change findMessageAuthenticator packet _ _ _ _ = .ok (firstMa (attributes packet), p) at hfind
  change firstMa (attributes packet) = none → p = hasProxyState (attributes packet) at hproxy
  unfold frRadiusVerify
  rw [if_neg (Nat.not_lt.mpr h.header_le), if_neg h.code_ne, hfind]
  dsimp only
  cases hma : firstMa (attributes packet) with
  | some msg =>
    have hrequired : Required packet requireMa limit := fun _ hnone => by simp [hma] at hnone
    exact (if_neg (by simp)).trans ((if_neg (by simp)).trans (if_pos hrequired).symm)
  | none =>
    have hrequired : Required packet requireMa limit ↔
        ¬(byte packet 0 = codeAccessRequest ∧ limit ∧ p ∧ Option.isNone (none : Option ℕ)) ∧
          ¬(byte packet 0 = codeAccessRequest ∧ requireMa ∧ Option.isNone (none : Option ℕ)) := by
      rw [Required, hproxy hma]
      by_cases hcode : byte packet 0 = codeAccessRequest <;>
        cases requireMa <;> cases limit <;> simp [hma, hcode]
    by_cases hlimit : byte packet 0 = codeAccessRequest ∧ limit ∧ p ∧
        Option.isNone (none : Option ℕ)
    · rw [if_pos hlimit, if_neg fun h => (hrequired.mp h).1 hlimit]
    rw [if_neg hlimit]
    by_cases hrequire : byte packet 0 = codeAccessRequest ∧ requireMa ∧
        Option.isNone (none : Option ℕ)
    · rw [if_pos hrequire, if_neg fun h => (hrequired.mp h).2 hrequire]
    · exact (if_neg hrequire).trans (if_pos (hrequired.mpr ⟨hlimit, hrequire⟩)).symm

/-- An unchanged packet with an error is right for a packet that is not valid. -/
theorem exact_of_error {e : DecodeFail}
    (h : frRadiusVerify hmacMd5 md5 packet vector secret requireMa limit = (packet, .error e))
    (hvalid : ¬Valid hmacMd5 md5 packet vector secret requireMa limit) :
    Exact hmacMd5 md5 packet vector secret requireMa limit := by
  unfold Exact
  rw [h]
  exact ⟨rfl, fun h => (nomatch h), fun h => absurd h hvalid⟩

theorem signedAuthenticator_eq_iff :
    signedAuthenticator md5 packet signed secret = authenticator packet ↔
      (byte packet 0 ≠ codeAccessRequest → byte packet 0 ≠ codeStatusServer →
        authenticator packet = (md5 (signed.take (lengthField packet)) secret).val) := by
  rw [signedAuthenticator]
  split_ifs with hrule
  · rw [authenticatorRule_eq_random] at hrule
    exact iff_of_true rfl fun h₁ h₂ => absurd hrule (not_or.mpr ⟨h₁, h₂⟩)
  · rw [authenticatorRule_eq_random, not_or] at hrule
    exact ⟨fun h _ _ => h.symm, fun h => (h hrule.1 hrule.2).symm⟩

theorem signedAuthenticator_of_random (h : authenticatorRule (byte packet 0) = .random) :
    signedAuthenticator md5 packet signed secret = authenticator packet :=
  if_pos h

section

variable (h : Accepted packet) (hsecret : secret.length ≤ 65535)
  (hcan : CanSign (byte packet 0) vector) (hrequired : Required packet requireMa limit)

include h hsecret hcan hrequired

theorem exact_of_none (hma : firstMa (attributes packet) = none) :
    Exact hmacMd5 md5 packet vector secret requireMa limit := by
  unfold Exact
  rw [frRadiusVerify_eq h, if_pos hrequired, frRadiusSign_none hmacMd5 md5 h hsecret hma hcan, hma]
  obtain ⟨hpacket, hok⟩ := compareSigned_none h.length
    (length_signedAuthenticator md5 h.length (forSigning packet vector) secret)
    signedAuthenticator_of_random
  refine ⟨hpacket, hok.trans (signedAuthenticator_eq_iff.trans ⟨fun hauth => ?_, fun h => h.4⟩)⟩
  exact ⟨hcan, hrequired, fun msg hmsg => (nomatch hma.symm.trans hmsg), hauth⟩

theorem exact_of_some (hma : firstMa (attributes packet) = some msg)
    (hcode : byte packet 0 ≠ codeProtocolError) :
    Exact hmacMd5 md5 packet vector secret requireMa limit := by
  have h20 : radiusHeaderLength = 20 := rfl
  have h16 : radiusAuthVectorLength = 16 := rfl
  have hwithin := h.scanned.within msg hma
  have hle := h.length_le
  have hvector := @length_signingVector packet vector h.length
  unfold Exact
  rw [frRadiusVerify_eq h, if_pos hrequired,
    frRadiusSign_some hmacMd5 md5 h hsecret hma hcan hcode, hma]
  obtain ⟨H, hH⟩ : ∃ H, H = signedMessageAuthenticator hmacMd5 packet vector secret msg := ⟨_, rfl⟩
  rw [← hH]
  obtain ⟨hpacket, hok⟩ := compareSigned_some (by omega) (hwithin.2.trans hle)
    (length_signedAuthenticator md5 h.length
      (splice (forSigning packet vector) (msg + 2) H.val) secret) H.property
    signedAuthenticator_of_random
  -- with the right Message-Authenticator, writing it has not changed the packet
  have hsame : H.val = slice packet (msg + 2) radiusAuthVectorLength →
      splice (forSigning packet vector) (msg + 2) H.val = forSigning packet vector := by
    intro heq
    have hfor : (forSigning packet vector).length = packet.length := length_splice (by omega)
    have hslice : slice (forSigning packet vector) (msg + 2) radiusAuthVectorLength = H.val := by
      rw [forSigning, slice_splice_of_apart (by omega) (by omega), heq]
    rw [← hslice, splice_slice (by omega)]
  refine ⟨hpacket, hok.trans ?_⟩
  rw [signedAuthenticator_eq_iff]
  constructor
  · rintro ⟨heq, hauth⟩
    rw [hsame heq] at hauth
    refine ⟨hcan, hrequired, fun msg' hmsg' => ?_, hauth⟩
    cases hma.symm.trans hmsg'
    exact heq.symm.trans (congrArg Subtype.val hH)
  · rintro ⟨-, -, hmessage, hauth⟩
    have heq : H.val = slice packet (msg + 2) radiusAuthVectorLength :=
      (congrArg Subtype.val hH).trans (hmessage msg hma).symm
    rw [hsame heq]
    exact ⟨heq, hauth⟩

end

/-- A Protocol-Error with a Message-Authenticator is never verified. -/
theorem frRadiusVerify_protocolError (h : Accepted packet)
    (hcode : byte packet 0 = codeProtocolError) (hma : (firstMa (attributes packet)).isSome) :
    frRadiusVerify hmacMd5 md5 packet vector secret requireMa limit = (packet, .error .verify) := by
  have hrequired : Required packet requireMa limit := fun _ hnone => by simp [hnone] at hma
  obtain ⟨e, he⟩ := @frRadiusSign_error hmacMd5 md5 packet secret vector h (.inr ⟨hcode, hma⟩)
  rw [frRadiusVerify_eq h, if_pos hrequired, he]

/-- Verification is exact, but for a valid Protocol-Error with a Message-Authenticator: what
`fr_radius_sign` does before it calculates that field has no case for this code. -/
theorem frRadiusVerify_exact {maxAttributes n : ℕ} {requireOk : Bool}
    (hok : frRadiusOk packet maxAttributes requireOk = .ok n) (hsecret : secret.length ≤ 65535) :
    Exact hmacMd5 md5 packet vector secret requireMa limit ↔
      ¬(byte packet 0 = codeProtocolError ∧ (firstMa (attributes packet)).isSome ∧
        Valid hmacMd5 md5 packet vector secret requireMa limit) := by
  have h := accepted_of_ok hok
  constructor
  · rintro ⟨-, hiff⟩ ⟨hcode, hma, hvalid⟩
    have := hiff.mpr hvalid
    rw [frRadiusVerify_protocolError h hcode hma] at this
    cases this
  intro hnot
  by_cases herror : byte packet 0 = codeProtocolError ∧ (firstMa (attributes packet)).isSome
  · exact exact_of_error (frRadiusVerify_protocolError h herror.1 herror.2)
      fun hvalid => hnot ⟨herror.1, herror.2, hvalid⟩
  by_cases hrequired : Required packet requireMa limit
  · by_cases hcan : CanSign (byte packet 0) vector
    · cases hma : firstMa (attributes packet) with
      | none => exact exact_of_none h hsecret hcan hrequired hma
      | some msg =>
        exact exact_of_some h hsecret hcan hrequired hma
          fun hcode => herror ⟨hcode, by simp [hma]⟩
    · obtain ⟨e, he⟩ := @frRadiusSign_error hmacMd5 md5 packet secret vector h (.inl hcan)
      refine exact_of_error (e := .verify) ?_ fun hvalid => hcan hvalid.canSign
      rw [frRadiusVerify_eq h, if_pos hrequired, he]
  · refine exact_of_error (e := .maMissing) ?_ fun hvalid => hrequired hvalid.required
    rw [frRadiusVerify_eq h, if_neg hrequired]

/-- A packet of this code, with a Message-Authenticator and nothing else in it. -/
def withMessageAuthenticator (code : UInt8) : List UInt8 :=
  [code, 1, 0, 38] ++ Digest.zero.val ++ [attrMessageAuthenticator, 18] ++ Digest.zero.val

theorem frRadiusVerify_exact_accept :
    frRadiusOk (withMessageAuthenticator 2) 0 true = .ok 38 ∧
      Exact (fun _ _ => Digest.zero) (fun _ _ => Digest.zero) (withMessageAuthenticator 2)
        (some Digest.zero) [1] true true ∧
      (frRadiusVerify (fun _ _ => Digest.zero) (fun _ _ => Digest.zero) (withMessageAuthenticator 2)
        (some Digest.zero) [1] true true).2 = .ok () := by
  have hok : frRadiusOk (withMessageAuthenticator 2) 0 true = .ok 38 := by decide
  have hcode : byte (withMessageAuthenticator 2) 0 ≠ codeProtocolError := by decide
  exact ⟨hok, (frRadiusVerify_exact hok (by decide)).mpr fun h => hcode h.1, by decide⟩

/-- With functions that always give zeros, the same Protocol-Error is valid and not verified. -/
theorem protocolError_not_verified :
    frRadiusOk (withMessageAuthenticator codeProtocolError) 0 true = .ok 38 ∧
      Valid (fun _ _ => Digest.zero) (fun _ _ => Digest.zero)
        (withMessageAuthenticator codeProtocolError) (some Digest.zero) [1] true true ∧
      frRadiusVerify (fun _ _ => Digest.zero) (fun _ _ => Digest.zero)
        (withMessageAuthenticator codeProtocolError) (some Digest.zero) [1] true true =
        (withMessageAuthenticator codeProtocolError, .error .verify) := by
  refine ⟨by decide, ⟨rfl, by decide, fun msg hmsg => ?_, fun _ _ => ?_⟩,
    by decide⟩
  · have hfirst : firstMa (attributes (withMessageAuthenticator codeProtocolError)) = some 20 := by
      decide
    cases hfirst.symm.trans hmsg
    decide
  · decide

end Verify

end FreeRadius.Radius
