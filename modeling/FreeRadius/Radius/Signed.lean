import FreeRadius.Radius.Verify

/-!
# Signed packets

A packet that `fr_radius_sign` has signed is one that `fr_radius_verify` accepts: the search for
the Message-Authenticator finds what it found before, and signing once more changes nothing.
-/

namespace FreeRadius.Radius

open Library

section Search

variable {packet packet' : List UInt8} {stop rounds off : ℕ} {p q : Bool} {found : Option ℕ}

theorem le_of_find {msg : ℕ}
    (h : findMessageAuthenticator packet stop rounds off p = .ok (some msg, q)) : off ≤ msg := by
  induction rounds generalizing off p with
  | zero => cases h
  | succ rounds ih =>
    rw [findMessageAuthenticator] at h
    dsimp only at h
    split_ifs at h
    · cases h
    · have := ih h
      omega
    · cases h
      exact Nat.le_refl _

theorem find_congr (h : findMessageAuthenticator packet stop rounds off p = .ok (found, q))
    (hsame : ∀ i, off ≤ i → (∀ msg, found = some msg → i < msg + 2) →
      byte packet' i = byte packet i) :
    findMessageAuthenticator packet' stop rounds off p = .ok (found, q) := by
  induction rounds generalizing off p with
  | zero => exact h
  | succ rounds ih =>
    by_cases hend : stop ≤ off
    · rw [findMessageAuthenticator, if_pos hend] at h ⊢
      exact h
    have hle : ∀ msg, found = some msg → off ≤ msg := fun msg hmsg => le_of_find (hmsg ▸ h)
    have htype := hsame off le_rfl fun msg hmsg => by have := hle msg hmsg; omega
    have hlength := hsame (off + 1) (by omega) fun msg hmsg => by have := hle msg hmsg; omega
    rw [findMessageAuthenticator, if_neg hend] at h ⊢
    dsimp only at h ⊢
    rw [htype, hlength]
    split_ifs at h ⊢ with hheader hma hshort hover
    · exact ih h fun i hi hbelow => hsame i (by omega) hbelow
    · exact h

end Search

section Again

variable {hmacMd5 md5 : List UInt8 → List UInt8 → Digest} {packet packet' secret : List UInt8}
  {vector : Option Digest} {requireMa limit : Bool}

theorem byte_splice_of_apart {off i : ℕ} {new : List UInt8} (h : off + new.length ≤ packet.length)
    (hi : i < off ∨ off + new.length ≤ i) : byte (splice packet off new) i = byte packet i := by
  rw [byte, byte, List.getD_eq_getElem?_getD, List.getD_eq_getElem?_getD, getElem?_splice h,
    if_neg (by omega)]

/-- The packets differ in the authenticator and in the Message-Authenticator at most. -/
structure Resigned (packet packet' : List UInt8) : Prop where
  length : packet'.length = packet.length
  size : lengthField packet' = lengthField packet
  code : byte packet' 0 = byte packet 0
  headers : ∀ i, radiusHeaderLength ≤ i →
    (∀ msg, firstMa (attributes packet) = some msg → i < msg + 2) → byte packet' i = byte packet i

/-- The attributes are found where they were. -/
theorem Resigned.accepted (h : Resigned packet packet') (hpacket : Accepted packet) :
    Accepted packet' ∧ firstMa (attributes packet') = firstMa (attributes packet) ∧
      (firstMa (attributes packet) = none →
        hasProxyState (attributes packet') = hasProxyState (attributes packet)) := by
  obtain ⟨q, hfind, hproxy⟩ := hpacket.scanned.find
  have hfind' := find_congr hfind h.headers
  obtain ⟨hscanned, hfirst⟩ := scanned_of_find hfind' fun msg hmsg =>
    (hpacket.scanned.within msg hmsg).2
  obtain ⟨q', hq', hproxy'⟩ := hscanned.find
  obtain rfl : q' = q := by
    rw [hfind'] at hq'
    injection hq' with hq'
    exact (Prod.mk.inj hq').2.symm
  have hattrs : attributes packet' = attributesFrom packet' (lengthField packet)
      (lengthField packet) radiusHeaderLength := by
    rw [attributes, h.size]
  refine ⟨⟨?_, ?_, ?_, ?_⟩, ?_, fun hnone => ?_⟩
  · rw [h.code]
    exact hpacket.code_ne
  · rw [h.size]
    exact hpacket.header_le
  · rw [h.size, h.length]
    exact hpacket.length_le
  · rw [h.size]
    exact hscanned
  · rw [hattrs]
    exact hfirst
  · rw [hattrs]
    have heq := (hproxy' (hfirst.trans hnone)).symm.trans (hproxy hnone)
    rwa [Bool.false_or, Bool.false_or] at heq

theorem Resigned.required (h : Resigned packet packet') (hpacket : Accepted packet)
    (hrequired : Required packet requireMa limit) : Required packet' requireMa limit := by
  obtain ⟨-, hfirst, hproxy⟩ := h.accepted hpacket
  intro hcode hnone
  rw [h.code] at hcode
  rw [hfirst] at hnone
  rw [hproxy hnone]
  exact hrequired hcode hnone

/-- A packet is verified with its own fields if signing it once more changes nothing. -/
theorem frRadiusVerify_of_again (h : Accepted packet) (hrequired : Required packet requireMa limit)
    (hagain : frRadiusSign hmacMd5 md5 packet vector secret = (packet, .ok ())) :
    frRadiusVerify hmacMd5 md5 packet vector secret requireMa limit = (packet, .ok ()) := by
  rw [frRadiusVerify_eq h, if_pos hrequired, hagain]
  cases firstMa (attributes packet) with
  | none => simp [compareSigned]
  | some msg => simp [compareSigned]

section Fields

variable {msg : ℕ} {H A : List UInt8}

theorem resigned_authenticator (h : Accepted packet) (hA : A.length = radiusAuthVectorLength) :
    Resigned packet (splice packet 4 A) := by
  have hlen := h.length
  have h16 : radiusAuthVectorLength = 16 := rfl
  have h20 : radiusHeaderLength = 20 := rfl
  have hfits : 4 + A.length ≤ packet.length := by omega
  refine ⟨length_splice hfits, ?_, byte_splice hfits (by decide), fun i hi _ => ?_⟩
  · rw [lengthField, lengthField, slice_splice_of_apart hfits (.inl le_rfl)]
  · exact byte_splice_of_apart hfits (.inr (by omega))

theorem resigned_messageAuthenticator (h : Accepted packet)
    (hma : firstMa (attributes packet) = some msg) (hH : H.length = radiusAuthVectorLength) :
    Resigned packet (splice packet (msg + 2) H) := by
  have hwithin := h.scanned.within msg hma
  have hle := h.length_le
  have h16 : radiusAuthVectorLength = 16 := rfl
  have h20 : radiusHeaderLength = 20 := rfl
  have hfits : msg + 2 + H.length ≤ packet.length := by omega
  refine ⟨length_splice hfits, ?_, byte_splice hfits (by omega), fun i hi hbelow => ?_⟩
  · rw [lengthField, lengthField, slice_splice_of_apart hfits (.inl (by omega))]
  · exact byte_splice_of_apart hfits (.inl (hbelow msg hma))

theorem signingVector_of_code (hcan : CanSign (byte packet 0) vector)
    (hrule : authenticatorRule (byte packet 0) ≠ .random) (hcode : byte packet' 0 = byte packet 0) :
    signingVector packet' vector = signingVector packet vector := by
  rw [CanSign] at hcan
  unfold signingVector
  rw [hcode]
  cases h : authenticatorRule (byte packet 0) with
  | zeros => rfl
  | original =>
    rw [h] at hcan
    obtain ⟨v, rfl⟩ := Option.isSome_iff_exists.mp hcan
    rfl
  | random => exact absurd h hrule
  | unknown =>
    rw [h] at hcan
    exact hcan.elim

/-- While a packet is signed, the authenticator that it has does not matter, unless it is
random and stays. -/
theorem forSigning_authenticator (hlen : 20 ≤ packet.length)
    (hA : A.length = radiusAuthVectorLength) (hcan : CanSign (byte packet 0) vector)
    (hrandom : authenticatorRule (byte packet 0) = .random → A = authenticator packet) :
    forSigning (splice packet 4 A) vector = forSigning packet vector := by
  have h16 : radiusAuthVectorLength = 16 := rfl
  have hfits : 4 + A.length ≤ packet.length := by omega
  have hcode := byte_splice hfits (show 0 < 4 by decide)
  by_cases hrule : authenticatorRule (byte packet 0) = .random
  · rw [hrandom hrule, splice_authenticator hlen]
  · rw [forSigning, forSigning, signingVector_of_code hcan hrule hcode,
      splice_splice hfits (by rw [length_signingVector hlen, hA])]

theorem authenticator_messageAuthenticator (hmsg : 20 ≤ msg)
    (hfits : msg + 2 + H.length ≤ packet.length) :
    authenticator (splice packet (msg + 2) H) = authenticator packet :=
  slice_splice_of_apart hfits (.inl (show 4 + 16 ≤ msg + 2 by omega))

theorem forSigning_messageAuthenticator (hmsg : 20 ≤ msg)
    (hfits : msg + 2 + H.length ≤ packet.length) :
    forSigning (splice packet (msg + 2) H) vector =
      splice (forSigning packet vector) (msg + 2) H := by
  have hvector : (signingVector packet vector).length = radiusAuthVectorLength :=
    length_signingVector (by omega)
  have h16 : radiusAuthVectorLength = 16 := rfl
  have hsame : signingVector (splice packet (msg + 2) H) vector = signingVector packet vector := by
    unfold signingVector
    rw [byte_splice hfits (by omega), authenticator_messageAuthenticator hmsg hfits]
  rw [forSigning, forSigning, hsame, splice_comm (by omega) hfits]

theorem signedAuthenticator_resigned (hcode : byte packet' 0 = byte packet 0)
    (hsize : lengthField packet' = lengthField packet) {X : List UInt8}
    (hauth : authenticator packet' = signedAuthenticator md5 packet X secret) :
    signedAuthenticator md5 packet' X secret = signedAuthenticator md5 packet X secret := by
  rw [signedAuthenticator, hcode, hsize]
  split
  · exact hauth
  · next h => rw [signedAuthenticator, if_neg h]

end Fields

theorem frRadiusSign_again_none (h : Accepted packet) (hsecret : secret.length ≤ 65535)
    (hma : firstMa (attributes packet) = none) (hcan : CanSign (byte packet 0) vector)
    {A : List UInt8} (hA : A = signedAuthenticator md5 packet (forSigning packet vector) secret) :
    frRadiusSign hmacMd5 md5 (splice packet 4 A) vector secret = (splice packet 4 A, .ok ()) := by
  have hlen := h.length
  have hAlen : A.length = radiusAuthVectorLength := by
    rw [hA]
    exact length_signedAuthenticator md5 hlen _ _
  have h16 : radiusAuthVectorLength = 16 := rfl
  have hfits : 4 + A.length ≤ packet.length := by omega
  have hsigned := resigned_authenticator h hAlen
  obtain ⟨haccepted, hfirst, -⟩ := hsigned.accepted h
  have hfor : forSigning (splice packet 4 A) vector = forSigning packet vector :=
    forSigning_authenticator hlen hAlen hcan fun hrandom => by
      rw [hA, signedAuthenticator_of_random hrandom]
  have hauth : authenticator (splice packet 4 A) = A := slice_splice_self hfits hAlen
  rw [frRadiusSign_none hmacMd5 md5 haccepted hsecret (hfirst.trans hma) (hsigned.code ▸ hcan), hfor,
    signedAuthenticator_resigned hsigned.code hsigned.size (hauth.trans hA), ← hA,
    splice_splice hfits rfl]

theorem frRadiusSign_again_some (h : Accepted packet) (hsecret : secret.length ≤ 65535) {msg : ℕ}
    (hma : firstMa (attributes packet) = some msg) (hcan : CanSign (byte packet 0) vector)
    (hcode : byte packet 0 ≠ codeProtocolError) {H : Digest} {A : List UInt8}
    (hH : H = signedMessageAuthenticator hmacMd5 packet vector secret msg)
    (hA : A = signedAuthenticator md5 packet
      (splice (forSigning packet vector) (msg + 2) H.val) secret) :
    frRadiusSign hmacMd5 md5 (splice (splice packet (msg + 2) H.val) 4 A) vector secret =
      (splice (splice packet (msg + 2) H.val) 4 A, .ok ()) := by
  have hwithin := h.scanned.within msg hma
  have hle := h.length_le
  have hlen := h.length
  have h16 : radiusAuthVectorLength = 16 := rfl
  have h20 : radiusHeaderLength = 20 := rfl
  have hHlen : H.val.length = radiusAuthVectorLength := H.property
  have hAlen : A.length = radiusAuthVectorLength := by
    rw [hA]
    exact length_signedAuthenticator md5 hlen _ _
  have hfits : msg + 2 + H.val.length ≤ packet.length := by omega
  -- first the Message-Authenticator, and then the authenticator
  have hinner := resigned_messageAuthenticator h hma hHlen
  obtain ⟨hmiddle, hfirst, -⟩ := hinner.accepted h
  have houter := resigned_authenticator hmiddle hAlen
  obtain ⟨haccepted, hfirst', -⟩ := houter.accepted hmiddle
  have hcode' := houter.code.trans hinner.code
  have hsize := houter.size.trans hinner.size
  have hfits' : 4 + A.length ≤ (splice packet (msg + 2) H.val).length := by
    rw [hinner.length]
    omega
  have hfor : forSigning (splice (splice packet (msg + 2) H.val) 4 A) vector =
      splice (forSigning packet vector) (msg + 2) H.val := by
    rw [forSigning_authenticator hmiddle.length hAlen (hinner.code ▸ hcan),
      forSigning_messageAuthenticator (by omega) hfits]
    intro hrandom
    rw [hinner.code] at hrandom
    rw [hA, signedAuthenticator_of_random hrandom,
      authenticator_messageAuthenticator (by omega) hfits]
  have hauth : authenticator (splice (splice packet (msg + 2) H.val) 4 A) = A :=
    slice_splice_self hfits' hAlen
  have hforLen : (forSigning packet vector).length = packet.length :=
    length_splice (by rw [length_signingVector hlen]; omega)
  have hmessage : signedMessageAuthenticator hmacMd5
      (splice (splice packet (msg + 2) H.val) 4 A) vector secret msg = H := by
    rw [signedMessageAuthenticator, hfor, hsize, splice_splice (by omega) hHlen, hH]
    rfl
  have hswap : splice (splice packet (msg + 2) H.val) 4 A =
      splice (splice packet 4 A) (msg + 2) H.val := (splice_comm (by omega) hfits).symm
  have hfits'' : msg + 2 + H.val.length ≤ (splice packet 4 A).length := by
    rw [length_splice (by omega)]
    exact hfits
  rw [frRadiusSign_some hmacMd5 md5 haccepted hsecret (hfirst'.trans (hfirst.trans hma))
    (hcode' ▸ hcan) (hcode' ▸ hcode), hmessage, hfor, splice_splice (by omega) rfl,
    signedAuthenticator_resigned hcode' hsize (hauth.trans hA), ← hA]
  rw [hswap, splice_splice hfits'' rfl, ← hswap, splice_splice hfits' rfl]

/-- Signing takes any secret that is not too long, the codes that it knows, and a
Message-Authenticator in all of them but one. -/
theorem frRadiusSign_ok_iff (h : Accepted packet) :
    (frRadiusSign hmacMd5 md5 packet vector secret).2 = .ok () ↔
      secret.length ≤ 65535 ∧ CanSign (byte packet 0) vector ∧
        (byte packet 0 = codeProtocolError → firstMa (attributes packet) = none) := by
  constructor
  · intro hsign
    have hno : ¬(¬CanSign (byte packet 0) vector ∨
        byte packet 0 = codeProtocolError ∧ (firstMa (attributes packet)).isSome) := by
      intro herror
      obtain ⟨e, he⟩ := @frRadiusSign_error hmacMd5 md5 packet secret vector h herror
      rw [he] at hsign
      cases hsign
    refine ⟨?_, by simpa using hno⟩
    by_contra hlong
    rw [frRadiusSign, if_pos (by omega)] at hsign
    cases hsign
  · rintro ⟨hsecret, hcan, hcode⟩
    cases hma : firstMa (attributes packet) with
    | none => rw [frRadiusSign_none hmacMd5 md5 h hsecret hma hcan]
    | some msg =>
      rw [frRadiusSign_some hmacMd5 md5 h hsecret hma hcan]
      intro heq
      cases hma.symm.trans (hcode heq)

/-- What has been signed is verified. -/
theorem frRadiusVerify_of_sign (h : Accepted packet) (hrequired : Required packet requireMa limit)
    (hsign : (frRadiusSign hmacMd5 md5 packet vector secret).2 = .ok ()) :
    (frRadiusVerify hmacMd5 md5 (frRadiusSign hmacMd5 md5 packet vector secret).1 vector secret
      requireMa limit).2 = .ok () := by
  obtain ⟨hsecret, hcan, hcode⟩ := (frRadiusSign_ok_iff h).mp hsign
  cases hma : firstMa (attributes packet) with
  | none =>
    rw [frRadiusSign_none hmacMd5 md5 h hsecret hma hcan]
    have hsigned := resigned_authenticator h
      (length_signedAuthenticator md5 h.length (forSigning packet vector) secret)
    rw [frRadiusVerify_of_again (hsigned.accepted h).1 (hsigned.required h hrequired)
      (frRadiusSign_again_none h hsecret hma hcan rfl)]
  | some msg =>
    have hcode' : byte packet 0 ≠ codeProtocolError := fun heq => by cases hma.symm.trans (hcode heq)
    rw [frRadiusSign_some hmacMd5 md5 h hsecret hma hcan hcode']
    have hinner := resigned_messageAuthenticator h hma
      (signedMessageAuthenticator hmacMd5 packet vector secret msg).property
    have hmiddle := (hinner.accepted h).1
    have houter := resigned_authenticator hmiddle
      (length_signedAuthenticator md5 h.length (splice (forSigning packet vector) (msg + 2)
        (signedMessageAuthenticator hmacMd5 packet vector secret msg).val) secret)
    rw [frRadiusVerify_of_again (houter.accepted hmiddle).1
      (houter.required hmiddle (hinner.required h hrequired))
      (frRadiusSign_again_some h hsecret hma hcan hcode' rfl rfl)]

end Again

end FreeRadius.Radius
