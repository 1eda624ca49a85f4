import FreeRadius.Library.Feedback
import FreeRadius.Radius.Model

/-!
# Encrypted attributes

`encode_password` and `encode_tunnel_password` of `encode.c`, and the functions of
`decode.c` that undo them. The buffers are changed in place, as in the source. An MD5
context is what has been digested so far, and MD5 is a function to digests of 16 bytes.

Both formats are a cipher feedback: the keys are the digests of the shared secret and
the encrypted block in front.
-/

namespace FreeRadius.Radius

open Library List

def radiusMaxPassLength : ℕ := 256

def radiusMaxStringLength : ℕ := 253

def authPassLen : ℕ := 16

def xorBytes (a b : List UInt8) : List UInt8 := zipWith (· ^^^ ·) a b

/-- `for (i = 0; i < n; i++) buffer[off + i] ^= digest[i];` -/
def xorAt (buffer : List UInt8) (off n : ℕ) (digest : Digest) : List UInt8 :=
  splice buffer off (xorBytes (slice buffer off n) digest.val)

def roundUp (n unit : ℕ) : ℕ := (n + (unit - 1)) / unit * unit

section Model

variable (md5 : List UInt8 → Digest) (secret : List UInt8)

/-- The loop of `encode_password` and `encode_tunnel_password`, over `len` bytes that
start at `off`. A block is digested for the next one after it has been encrypted. -/
def encryptLoop (off len : ℕ) (blockLen : ℕ → ℕ) : ℕ → ℕ → List UInt8 → List UInt8 → List UInt8
  | 0, _, _, passwd => passwd
  | rounds + 1, n, md5Ctx, passwd =>
    if len ≤ n then passwd
    else
      let md5Ctx :=
        if 0 < n then secret ++ slice passwd (off + n - authPassLen) authPassLen else md5Ctx
      encryptLoop off len blockLen rounds (n + authPassLen) md5Ctx
        (xorAt passwd (off + n) (blockLen n) (md5 md5Ctx))

/-- The bytes that `encode_password` writes. -/
def encodePassword (requestAuthenticator : Digest) (input : List UInt8) : List UInt8 :=
  let len := min input.length radiusMaxPassLength
  let passwd := input.take len ++ replicate (radiusMaxPassLength - len) 0
  let len := if len = 0 then authPassLen else roundUp len authPassLen
  let passwd := encryptLoop md5 secret 0 len (fun _ => authPassLen) len 0
    (secret ++ requestAuthenticator.val) passwd
  passwd.take len

/-- The loop of `fr_radius_decode_password`. A block is digested for the next one
before it is overwritten. -/
def decryptLoop (requestAuthenticator : Digest) (pwlen : ℕ) :
    ℕ → ℕ → List UInt8 → List UInt8 → List UInt8
  | 0, _, _, passwd => passwd
  | rounds + 1, n, md5Ctx, passwd =>
    if pwlen ≤ n then passwd
    else
      let digest := md5 (if n = 0 then md5Ctx ++ requestAuthenticator.val else md5Ctx)
      let md5Ctx :=
        secret ++ if n + authPassLen < pwlen then slice passwd n authPassLen else []
      decryptLoop requestAuthenticator pwlen rounds (n + authPassLen) md5Ctx
        (xorAt passwd n authPassLen digest)

def frRadiusDecodePassword (requestAuthenticator : Digest) (passwd : List UInt8) (pwlen : ℕ) :
    List UInt8 :=
  let pwlen := min pwlen radiusMaxPassLength
  let passwd :=
    if pwlen = 0 then passwd
    else decryptLoop md5 secret requestAuthenticator pwlen pwlen 0 secret passwd
  passwd.set pwlen 0

/-- What is encrypted in a tunnel password: the length, the password, and random bytes
to the end of the buffer. -/
def tunnelText (rand : ℕ → UInt32) (input : List UInt8) : List UInt8 :=
  UInt8.ofNat input.length :: (input ++
    (List.range (radiusMaxStringLength - 3 - input.length)).map fun i => UInt8.ofNat (rand i).toNat)

/-- The salt in front of it, from the next random number: the highest bit is set, the next
three are a counter, and the others are random. -/
def tunnelSalt (rand : ℕ → UInt32) (saltOffset : ℕ) (input : List UInt8) : List UInt8 :=
  let r := (rand (radiusMaxStringLength - 3 - input.length)).toNat
  [0x80 ||| UInt8.ofNat (saltOffset % 8 * 16) ||| UInt8.ofNat (r / 256 % 16), UInt8.ofNat r]

/-- How much of it is encrypted: whole blocks, as long as they fit. -/
def encryptedLength (inlen : ℕ) : ℕ :=
  min (roundUp (inlen + 1) authPassLen) (radiusMaxStringLength - 2)

/-- `encode_tunnel_password` into `room` bytes. `rand` are the random numbers to come. -/
def encodeTunnelPassword (requestAuthenticator : Digest) (rand : ℕ → UInt32) (saltOffset : ℕ)
    (input : List UInt8) (room : ℕ) : Option (List UInt8) :=
  let inlen := input.length
  if radiusMaxStringLength - 3 < inlen then none
  else
    let encryptedLen := encryptedLength inlen
    let padding := encryptedLen - (inlen + 1)
    let outputLen := encryptedLen + 2
    -- what does not fit may only be padding
    let overrun := outputLen - min room radiusMaxStringLength
    if padding < overrun then none
    else
      let salt := tunnelSalt rand saltOffset input
      let tpasswd := encryptLoop md5 secret 2 encryptedLen
        (fun n => min (encryptedLen - n) authPassLen) encryptedLen 0
        (secret ++ (requestAuthenticator.val ++ salt)) (salt ++ tunnelText rand input)
      some (tpasswd.take (outputLen - overrun))

/-- The loop of `fr_radius_decode_tunnel_password`, which moves the password over the
salt and the length in front of it. Every byte is read before it is overwritten. -/
def decryptTunnelLoop (pwlen : ℕ) : ℕ → ℕ → List UInt8 → List UInt8 → List UInt8
  | 0, _, _, passwd => passwd
  | rounds + 1, n, md5Ctx, passwd =>
    if pwlen - 2 ≤ n then passwd
    else
      let blockLen := if pwlen < n + 2 + authPassLen then pwlen - n - 2 else authPassLen
      let base := if n = 0 then 1 else 0
      let digest := md5 md5Ctx
      let plain := xorBytes (slice passwd (n + base + 2) (blockLen - base)) (digest.val.drop base)
      decryptTunnelLoop pwlen rounds (n + authPassLen) (secret ++ slice passwd (n + 2) blockLen)
        (splice passwd (n + base - 1) plain)

/-- `fr_radius_decode_tunnel_password` of the `pwlen` bytes at the beginning of a
buffer, and the length of the password. -/
def frRadiusDecodeTunnelPassword (requestAuthenticator : Digest) (tunnelPasswordZeros : Bool)
    (passwd : List UInt8) (pwlen : ℕ) : Option (List UInt8 × ℕ) :=
  if pwlen < 2 then none
  else if pwlen ≤ 3 then some (passwd.set 0 0, 0)
  else
    let encryptedLen := pwlen - 2
    let md5Ctx := secret ++ (requestAuthenticator.val ++ passwd.take 2)
    let embeddedLen := (byte passwd 2 ^^^ byte (md5 md5Ctx).val 0).toNat
    if encryptedLen < embeddedLen then none
    else
      let passwd := decryptTunnelLoop md5 secret pwlen encryptedLen 0 md5Ctx passwd
      if tunnelPasswordZeros &&
          (slice passwd embeddedLen (encryptedLen - 1 - embeddedLen)).any (· ≠ 0) then none
      else some (passwd.set embeddedLen 0, embeddedLen)

/-- The bytes that `fr_radius_ascend_secret` writes. -/
def frRadiusAscendSecret (vector : Digest) (input : List UInt8) : List UInt8 :=
  let digest := (md5 (vector.val ++ secret)).val
  xorBytes (digest.take (min input.length authPassLen)) input ++
    digest.drop (min input.length authPassLen)

end Model

variable {text : List UInt8} {pwlen n m : ℕ}

section Chain

variable {md5 : List UInt8 → Digest} {secret : List UInt8} {n len off rounds : ℕ}

def chainKey (md5 : List UInt8 → Digest) (secret last : List UInt8) : List UInt8 :=
  (md5 (secret ++ last)).val

theorem length_chainKey (md5 : List UInt8 → Digest) (secret last : List UInt8) :
    (chainKey md5 secret last).length = authPassLen :=
  (md5 (secret ++ last)).property

/-- What the formats have in common. -/
def chainEncrypt (md5 : List UInt8 → Digest) (secret : List UInt8) :
    ℕ → List UInt8 → List UInt8 → List UInt8 :=
  feedbackEncrypt (fun a b : UInt8 => a ^^^ b) (chainKey md5 secret) authPassLen

def chainDecrypt (md5 : List UInt8 → Digest) (secret : List UInt8) :
    ℕ → List UInt8 → List UInt8 → List UInt8 :=
  feedbackDecrypt (fun a b : UInt8 => a ^^^ b) (chainKey md5 secret) authPassLen

theorem chainDecrypt_succ (rounds : ℕ) (last text : List UInt8) :
    chainDecrypt md5 secret (rounds + 1) last text =
      xorBytes (text.take authPassLen) (md5 (secret ++ last)).val ++
        chainDecrypt md5 secret rounds (text.take authPassLen) (text.drop authPassLen) :=
  rfl

theorem xor_cancel (a b : UInt8) : a ^^^ b ^^^ b = a := by
  rw [UInt8.xor_assoc, UInt8.xor_self, UInt8.xor_zero]

@[simp] theorem chainEncrypt_nil (rounds : ℕ) (last : List UInt8) :
    chainEncrypt md5 secret rounds last [] = [] :=
  feedbackEncrypt_nil rounds last

@[simp] theorem chainDecrypt_nil (rounds : ℕ) (last : List UInt8) :
    chainDecrypt md5 secret rounds last [] = [] :=
  feedbackDecrypt_nil rounds last

theorem length_chainEncrypt (h : text.length ≤ authPassLen * rounds) (last : List UInt8) :
    (chainEncrypt md5 secret rounds last text).length = text.length :=
  length_feedbackEncrypt (length_chainKey md5 secret) h last

theorem chainDecrypt_chainEncrypt (h : text.length ≤ authPassLen * rounds) (last : List UInt8) :
    chainDecrypt md5 secret rounds last (chainEncrypt md5 secret rounds last text) = text :=
  feedbackDecrypt_feedbackEncrypt (length_chainKey md5 secret) xor_cancel h last

theorem length_xorBytes (a b : List UInt8) : (xorBytes a b).length = min a.length b.length := by
  rw [xorBytes, length_zipWith]

theorem length_xorBlock (text : List UInt8) (digest : Digest) :
    (xorBytes (text.take authPassLen) digest.val).length = min authPassLen text.length := by
  rw [length_xorBytes, digest.property, length_take]
  exact Nat.min_eq_left (Nat.min_le_left _ _)

theorem drop_block (text b : List UInt8) :
    (text ++ b).drop (min authPassLen text.length) = text.drop authPassLen ++ b := by
  rw [drop_append]
  rcases Nat.le_total authPassLen text.length with h | h
  · rw [Nat.min_eq_left h, Nat.sub_eq_zero_of_le h, drop_zero]
  · rw [Nat.min_eq_right h, Nat.sub_self, drop_zero, drop_eq_nil_of_le h,
      drop_eq_nil_of_le le_rfl]

theorem xorAt_append (a text b : List UInt8) (k : ℕ) (digest : Digest)
    (hk : min k (text ++ b).length = min authPassLen text.length) :
    xorAt (a ++ (text ++ b)) a.length k digest =
      a ++ xorBytes (text.take authPassLen) digest.val ++ (text.drop authPassLen ++ b) := by
  have hslice : slice (a ++ (text ++ b)) a.length k = text.take authPassLen := by
    rw [slice_append, take_eq_take_min, hk, take_append_of_le_length (Nat.min_le_right _ _),
      ← take_eq_take_min]
  rw [xorAt, hslice, splice_append, length_xorBlock, drop_block]

/-- The loop that encrypts, for a text of `len - n` bytes behind `a`. -/
theorem encryptLoop_eq {blockLen : ℕ → ℕ} (b : List UInt8)
    (hblock : ∀ m, m % authPassLen = 0 → m < len → blockLen m = min (len - m) authPassLen)
    (a text last md5Ctx : List UInt8) (hmod : n % authPassLen = 0) (htext : text.length = len - n)
    (hrounds : text.length ≤ authPassLen * rounds) (ha : n < len → a.length = off + n)
    (hfirst : n = 0 → md5Ctx = secret ++ last)
    (hlast : 0 < n → n < len → last = slice a (off + n - authPassLen) authPassLen) :
    encryptLoop md5 secret off len blockLen rounds n md5Ctx (a ++ (text ++ b)) =
      a ++ (chainEncrypt md5 secret rounds last text ++ b) := by
  induction rounds generalizing n a text last md5Ctx with
  | zero =>
    obtain rfl : text = [] := by simpa using hrounds
    rfl
  | succ rounds ih =>
    rw [encryptLoop]
    rcases Nat.lt_or_ge n len with hn | hn
    · rw [if_neg (Nat.not_le.mpr hn)]
      replace ha := ha hn
      have hctx : (if 0 < n then secret ++ slice (a ++ (text ++ b)) (off + n - authPassLen) authPassLen
          else md5Ctx) = secret ++ last := by
        rcases Nat.eq_zero_or_pos n with h0 | hpos
        · rw [if_neg (by omega), hfirst h0]
        · have hle : authPassLen ≤ n := Nat.le_of_dvd hpos (Nat.dvd_of_mod_eq_zero hmod)
          rw [if_pos hpos, hlast hpos hn, slice_append_left (by omega)]
      have hmin : min (blockLen n) (text ++ b).length = min authPassLen text.length := by
        rw [hblock n hmod hn, length_append]
        omega
      simp only [hctx]
      rw [← ha, xorAt_append a text b _ _ hmin,
        ih _ _ (xorBytes (text.take authPassLen) (md5 (secret ++ last)).val)]
      · rw [append_assoc, ← append_assoc (xorBytes _ _)]
        rfl
      · rw [Nat.add_mod, hmod]
        rfl
      · rw [length_drop, htext]
        omega
      · rw [length_drop]
        rw [Nat.mul_succ] at hrounds
        omega
      · intro hlt
        rw [length_append, ha, length_xorBlock]
        omega
      · intro h0
        simp [authPassLen] at h0
      · intro _ _
        have hoff : off + (n + authPassLen) - authPassLen = a.length := by omega
        rw [hoff, slice_append]
        refine (take_of_length_le ?_).symm
        rw [length_xorBlock]
        exact Nat.min_le_left _ _
    · obtain rfl : text = [] := eq_nil_of_length_eq_zero (by omega)
      rw [if_pos hn, chainEncrypt_nil]

/-- The loop that decrypts, for a text of whole blocks behind `a`. -/
theorem decryptLoop_eq {requestAuthenticator : Digest} (b a text last md5Ctx : List UInt8)
    (hlen : pwlen % authPassLen = 0) (hmod : n % authPassLen = 0) (htext : text.length = pwlen - n)
    (hrounds : text.length ≤ authPassLen * rounds) (ha : n ≤ pwlen → a.length = n)
    (hctx : n < pwlen →
      (if n = 0 then md5Ctx ++ requestAuthenticator.val else md5Ctx) = secret ++ last) :
    decryptLoop md5 secret requestAuthenticator pwlen rounds n md5Ctx (a ++ (text ++ b)) =
      a ++ (chainDecrypt md5 secret rounds last text ++ b) := by
  induction rounds generalizing n a text last md5Ctx with
  | zero =>
    obtain rfl : text = [] := by simpa using hrounds
    rfl
  | succ rounds ih =>
    rw [decryptLoop]
    rcases Nat.lt_or_ge n pwlen with hn | hn
    · rw [if_neg (Nat.not_le.mpr hn)]
      replace ha := ha hn.le
      have hfull : authPassLen ≤ text.length := by
        simp only [authPassLen] at *
        omega
      have hmin : min authPassLen (text ++ b).length = min authPassLen text.length := by
        rw [length_append]
        omega
      have hslice : slice (a ++ (text ++ b)) n authPassLen = text.take authPassLen := by
        rw [← ha, slice_append, take_append_of_le_length hfull]
      simp only [hctx hn, hslice]
      subst ha
      rw [xorAt_append a text b _ _ hmin, ih _ _ (text.take authPassLen)]
      · rw [chainDecrypt_succ, append_assoc, append_assoc]
      · rw [Nat.add_mod, hmod]
        rfl
      · rw [length_drop, htext]
        omega
      · rw [length_drop]
        rw [Nat.mul_succ] at hrounds
        omega
      · intro _
        rw [length_append, length_xorBlock]
        omega
      · intro hlt
        rw [if_neg (by simp [authPassLen]), if_pos hlt]
    · obtain rfl : text = [] := eq_nil_of_length_eq_zero (by omega)
      rw [if_pos hn, chainDecrypt_nil]

/-- One round of the loop for tunnel passwords: `k` bytes behind the first three of `t`
are decrypted to the beginning of `t`. -/
theorem splice_over_gap (a t plain : List UInt8) (k : ℕ) (hplain : plain.length = k) :
    ∃ t', splice (a ++ t) a.length plain = a ++ plain ++ t' ∧ t'.drop 3 = (t.drop 3).drop k := by
  refine ⟨t.drop k, ?_, ?_⟩
  · rw [splice_append, hplain]
  · rw [drop_drop, drop_drop, Nat.add_comm]

/-- The loop for tunnel passwords after its first round. The text is three bytes behind
the place that it is decrypted to. -/
theorem decryptTunnelLoop_eq (b a t text last : List UInt8) (hn : 0 < n)
    (htext : text.length = pwlen - 2 - n) (hrounds : text.length ≤ authPassLen * rounds)
    (ha : n < pwlen - 2 → a.length = n - 1) (ht : t.drop 3 = text ++ b) :
    ∃ t', decryptTunnelLoop md5 secret pwlen rounds n (secret ++ last) (a ++ t) =
      a ++ chainDecrypt md5 secret rounds last text ++ t' := by
  induction rounds generalizing n a t text last with
  | zero => exact ⟨t, by simp [decryptTunnelLoop, chainDecrypt, feedbackDecrypt]⟩
  | succ rounds ih =>
    rw [decryptTunnelLoop]
    rcases Nat.lt_or_ge n (pwlen - 2) with hlt | hge
    · rw [if_neg (Nat.not_le.mpr hlt)]
      replace ha := ha hlt
      have hblock : (if pwlen < n + 2 + authPassLen then pwlen - n - 2 else authPassLen) =
          min authPassLen text.length := by
        split <;> omega
      have hread : slice (a ++ t) (n + 2) (min authPassLen text.length) =
          text.take authPassLen := by
        have hright := slice_append_right a t 3 (min authPassLen text.length)
        rw [ha, show n - 1 + 3 = n + 2 by omega] at hright
        rw [hright, slice, ht, take_append_of_le_length (Nat.min_le_right _ _), ← take_eq_take_min]
      obtain ⟨plain, hplain⟩ : ∃ plain, xorBytes (text.take authPassLen) (md5 (secret ++ last)).val =
        plain := ⟨_, rfl⟩
      have hlen : plain.length = min authPassLen text.length := hplain ▸ length_xorBlock _ _
      obtain ⟨t₁, hsplice, hdrop⟩ := splice_over_gap a t plain _ hlen
      simp only [hblock, if_neg hn.ne', Nat.add_zero, Nat.sub_zero, hread, drop_zero, hplain]
      rw [show n - 1 = a.length from ha.symm, hsplice]
      obtain ⟨t', ht'⟩ := ih (n := n + authPassLen) (a ++ plain) t₁ (text.drop authPassLen)
        (text.take authPassLen) (Nat.add_pos_left hn _)
        (by rw [length_drop, htext]; omega)
        (by rw [length_drop]; rw [Nat.mul_succ] at hrounds; omega)
        (by
          intro hlt'
          rw [length_append, ha, hlen]
          omega)
        (by rw [hdrop, ht, drop_block])
      refine ⟨t', ?_⟩
      rw [ht', chainDecrypt_succ, hplain, append_assoc, append_assoc, append_assoc, append_assoc]
    · obtain rfl : text = [] := eq_nil_of_length_eq_zero (by omega)
      exact ⟨t, by rw [if_pos hge, chainDecrypt_nil, append_nil]⟩

end Chain

section UserPassword

variable (md5 : List UInt8 → Digest) (secret : List UInt8) (requestAuthenticator : Digest)

def paddedLength (n : ℕ) : ℕ := if n = 0 then authPassLen else roundUp n authPassLen

/-- A password with the zeros that fill its last block. -/
def padPassword (input : List UInt8) : List UInt8 :=
  input ++ replicate (paddedLength input.length - input.length) 0

theorem le_paddedLength (n : ℕ) : n ≤ paddedLength n := by
  unfold paddedLength roundUp authPassLen
  split <;> omega

theorem paddedLength_mod (n : ℕ) : paddedLength n % authPassLen = 0 := by
  unfold paddedLength roundUp authPassLen
  split <;> omega

theorem paddedLength_le (h : n ≤ m * authPassLen) (hm : 0 < m) :
    paddedLength n ≤ m * authPassLen := by
  unfold paddedLength roundUp authPassLen at *
  split <;> omega

theorem paddedLength_pos (n : ℕ) : 0 < paddedLength n := by
  unfold paddedLength roundUp authPassLen
  split <;> omega

theorem length_padPassword (input : List UInt8) :
    (padPassword input).length = paddedLength input.length := by
  have hle := le_paddedLength input.length
  rw [padPassword, length_append, length_replicate]
  omega

theorem length_padPassword_le (input : List UInt8) :
    (padPassword input).length ≤ authPassLen * paddedLength input.length := by
  rw [length_padPassword, authPassLen]
  omega

variable {input : List UInt8}

section

variable (h : input.length ≤ radiusMaxPassLength)

include h

theorem encodePassword_eq :
    encodePassword md5 secret requestAuthenticator input =
      chainEncrypt md5 secret (paddedLength input.length) requestAuthenticator.val
        (padPassword input) := by
  have hpad : paddedLength input.length ≤ radiusMaxPassLength := paddedLength_le (m := 16) h (by decide)
  have hle := le_paddedLength input.length
  have hlen := length_padPassword input
  have hsplit : input.take input.length ++ replicate (radiusMaxPassLength - input.length) 0 =
      [] ++ (padPassword input ++
        replicate (radiusMaxPassLength - paddedLength input.length) 0) := by
    rw [take_length, nil_append, padPassword, append_assoc, replicate_append_replicate]
    congr 2
    omega
  have hblock : ∀ m, m % authPassLen = 0 → m < paddedLength input.length →
      (fun _ => authPassLen) m = min (paddedLength input.length - m) authPassLen := by
    intro m hm hlt
    have hmod := paddedLength_mod input.length
    simp only [authPassLen] at *
    omega
  have hrounds := length_padPassword_le input
  unfold encodePassword
  simp only [Nat.min_eq_left h]
  rw [← paddedLength, hsplit, encryptLoop_eq _ hblock [] _ requestAuthenticator.val _ rfl hlen hrounds
    (fun _ => rfl) (fun _ => rfl) (fun h => absurd h (Nat.lt_irrefl 0)), nil_append]
  refine take_left' ?_
  rw [length_chainEncrypt hrounds, hlen]

theorem length_encodePassword :
    (encodePassword md5 secret requestAuthenticator input).length = paddedLength input.length := by
  rw [encodePassword_eq md5 secret requestAuthenticator h,
    length_chainEncrypt (length_padPassword_le input), length_padPassword]

/-- The buffer holds the password and its padding again. -/
theorem frRadiusDecodePassword_encodePassword (b : List UInt8) :
    frRadiusDecodePassword md5 secret requestAuthenticator
        (encodePassword md5 secret requestAuthenticator input ++ b) (paddedLength input.length) =
      (padPassword input ++ b).set (paddedLength input.length) 0 := by
  have hpad : paddedLength input.length ≤ radiusMaxPassLength := paddedLength_le (m := 16) h (by decide)
  have hpos := paddedLength_pos input.length
  have hlen := length_encodePassword md5 secret requestAuthenticator h
  have hloop : decryptLoop md5 secret requestAuthenticator (paddedLength input.length)
      (paddedLength input.length) 0 secret
      ([] ++ (encodePassword md5 secret requestAuthenticator input ++ b)) =
        [] ++ (chainDecrypt md5 secret (paddedLength input.length) requestAuthenticator.val
          (encodePassword md5 secret requestAuthenticator input) ++ b) := by
    refine decryptLoop_eq b [] _ _ secret (paddedLength_mod input.length) rfl hlen ?_
      (fun _ => rfl) (fun _ => rfl)
    rw [hlen, authPassLen]
    omega
  unfold frRadiusDecodePassword
  simp only [Nat.min_eq_left hpad, if_neg hpos.ne']
  rw [nil_append] at hloop
  rw [hloop, nil_append, encodePassword_eq md5 secret requestAuthenticator h,
    chainDecrypt_chainEncrypt (length_padPassword_le input)]

end

end UserPassword

section TunnelPassword

variable (md5 : List UInt8 → Digest) (secret : List UInt8) (requestAuthenticator : Digest)

theorem length_tunnelSalt (rand : ℕ → UInt32) (saltOffset : ℕ) (input : List UInt8) :
    (tunnelSalt rand saltOffset input).length = 2 := rfl

variable {input salt cipher : List UInt8}

theorem length_tunnelText (rand : ℕ → UInt32) (h : input.length ≤ radiusMaxStringLength - 3) :
    (tunnelText rand input).length = 251 := by
  rw [tunnelText, length_cons, length_append, length_map, length_range]
  simp only [radiusMaxStringLength] at *
  omega

theorem lt_encryptedLength (h : n ≤ radiusMaxStringLength - 3) :
    n < encryptedLength n ∧ encryptedLength n ≤ 251 := by
  unfold encryptedLength roundUp authPassLen radiusMaxStringLength at *
  omega

/-- The bytes that are written, if `m` bytes behind the salt fit. -/
theorem encodeTunnelPassword_eq {rand : ℕ → UInt32} {saltOffset room : ℕ}
    (h : input.length ≤ radiusMaxStringLength - 3)
    (hm : m = min (encryptedLength input.length) (min room radiusMaxStringLength - 2))
    (hfits : input.length < m) :
    encodeTunnelPassword md5 secret requestAuthenticator rand saltOffset input room =
      some (tunnelSalt rand saltOffset input ++ chainEncrypt md5 secret m
        (requestAuthenticator.val ++ tunnelSalt rand saltOffset input)
        ((tunnelText rand input).take m)) := by
  obtain ⟨hpos, hle⟩ := lt_encryptedLength h
  have htext := length_tunnelText rand h
  obtain ⟨len, hlen⟩ : ∃ len, encryptedLength input.length = len := ⟨_, rfl⟩
  have hblock : ∀ k, k % authPassLen = 0 → k < len →
      (fun k => min (len - k) authPassLen) k = min (len - k) authPassLen := fun _ _ _ => rfl
  have hcut : ((tunnelText rand input).take len).length = len := by
    rw [length_take]
    omega
  have hrounds : ((tunnelText rand input).take len).length ≤ authPassLen * len := by
    rw [hcut, authPassLen]
    omega
  have hloop : encryptLoop md5 secret 2 len (fun k => min (len - k) authPassLen) len 0
      (secret ++ (requestAuthenticator.val ++ tunnelSalt rand saltOffset input))
      (tunnelSalt rand saltOffset input ++ ((tunnelText rand input).take len ++
        (tunnelText rand input).drop len)) =
        tunnelSalt rand saltOffset input ++ (chainEncrypt md5 secret len
          (requestAuthenticator.val ++ tunnelSalt rand saltOffset input)
          ((tunnelText rand input).take len) ++ (tunnelText rand input).drop len) :=
    encryptLoop_eq _ hblock _ _ _ _ rfl hcut hrounds (fun _ => rfl) (fun _ => rfl)
      (fun h => absurd h (Nat.lt_irrefl 0))
  rw [take_append_drop] at hloop
  rw [hlen] at hpos hle hm
  have hml : m ≤ len := by omega
  have hout : len + 2 - (len + 2 - min room radiusMaxStringLength) = 2 + m := by omega
  unfold encodeTunnelPassword
  simp only [hlen]
  rw [if_neg (by omega), if_neg (by omega), hloop, hout, take_append, length_tunnelSalt,
    take_of_length_le (by rw [length_tunnelSalt]; omega), Nat.add_sub_cancel_left,
    take_append_of_le_length (by rw [length_chainEncrypt hrounds, hcut]; exact hml),
    chainEncrypt, take_feedbackEncrypt (length_chainKey md5 secret) hrounds, take_take,
    Nat.min_eq_left hml]
  have hm' : ((tunnelText rand input).take m).length = m := by
    rw [length_take]
    omega
  have hrounds' : ∀ k, m ≤ k → ((tunnelText rand input).take m).length ≤ authPassLen * k := by
    intro k hk
    rw [hm', authPassLen]
    omega
  rw [feedbackEncrypt_blocks (hrounds' len hml) (hrounds' m le_rfl)]

/-- The first round leaves out the length in front of the password. -/
theorem decryptTunnelLoop_first (hsalt : salt.length = 2) (hcipher : 0 < cipher.length)
    (last b : List UInt8) :
    ∃ t, decryptTunnelLoop md5 secret (2 + cipher.length) cipher.length 0 (secret ++ last)
        (salt ++ (cipher ++ b)) =
      (chainDecrypt md5 secret cipher.length last cipher).drop 1 ++ t := by
  obtain ⟨rounds, hrounds⟩ : ∃ rounds, cipher.length = rounds + 1 := ⟨_, (Nat.sub_add_cancel hcipher).symm⟩
  obtain ⟨block, hblock⟩ : ∃ block, xorBytes (cipher.take authPassLen) (md5 (secret ++ last)).val =
    block := ⟨_, rfl⟩
  have hlen : block.length = min authPassLen cipher.length := hblock ▸ length_xorBlock _ _
  have hwidth : (if 2 + (rounds + 1) < 0 + 2 + authPassLen then 2 + (rounds + 1) - 0 - 2
      else authPassLen) = min authPassLen cipher.length := by
    split <;> omega
  have hread : ∀ i, slice (salt ++ (cipher ++ b)) (2 + i) (min authPassLen cipher.length - i) =
      (cipher.take authPassLen).drop i := by
    intro i
    have hright := slice_append_right salt (cipher ++ b) i (min authPassLen cipher.length - i)
    rw [hsalt] at hright
    rw [hright, slice, ← drop_take, take_append_of_le_length (Nat.min_le_right _ _),
      ← take_eq_take_min]
  have hplain : xorBytes ((cipher.take authPassLen).drop 1) ((md5 (secret ++ last)).val.drop 1) =
      block.drop 1 := by
    rw [← hblock, xorBytes, xorBytes, drop_zipWith]
  have hread₀ := hread 0
  have hread₁ := hread 1
  rw [Nat.add_zero, Nat.sub_zero, drop_zero] at hread₀
  obtain ⟨t, hsplice, hdrop⟩ := splice_over_gap [] (salt ++ (cipher ++ b)) (block.drop 1) _ rfl
  rw [nil_append, nil_append, length_nil] at hsplice
  rw [hrounds, decryptTunnelLoop, if_neg (by omega)]
  simp only [if_pos, hwidth]
  rw [show 0 + 1 + 2 = 2 + 1 from rfl, hread₁, hplain, show 0 + 1 - 1 = 0 from rfl, hsplice,
    Nat.zero_add, Nat.zero_add, hread₀]
  have hrest : t.drop 3 = cipher.drop authPassLen ++ b := by
    have hgap : (salt ++ (cipher ++ b)).drop 3 = (cipher ++ b).drop 1 := by
      rw [show 3 = salt.length + 1 by rw [hsalt], drop_length_add_append]
    have hnext : 1 + (block.length - 1) = min authPassLen cipher.length := by
      rw [hlen, authPassLen]
      omega
    rw [hdrop, hgap, drop_drop, length_drop, hnext, drop_block]
  obtain ⟨t', ht'⟩ : ∃ t', decryptTunnelLoop md5 secret (2 + (rounds + 1)) rounds authPassLen
      (secret ++ cipher.take authPassLen) (block.drop 1 ++ t) =
        block.drop 1 ++ chainDecrypt md5 secret rounds (cipher.take authPassLen)
          (cipher.drop authPassLen) ++ t' := by
    refine decryptTunnelLoop_eq b _ _ _ _ (by decide) ?_ ?_ ?_ hrest
    · rw [length_drop]
      omega
    · rw [length_drop, authPassLen]
      omega
    · intro hlt
      rw [length_drop, hlen]
      omega
  refine ⟨t', ?_⟩
  have hne : 1 ≤ block.length := by
    rw [hlen, authPassLen]
    omega
  rw [ht', chainDecrypt_succ, hblock, drop_append_of_le_length hne]

/-- What the function leaves in the buffer: the text behind its first byte, which is the
length that it answers. -/
theorem frRadiusDecodeTunnelPassword_eq (hsalt : salt.length = 2) (hcipher : 1 < cipher.length)
    (zeros : Bool) (b : List UInt8) :
    ∃ t, ∀ plain, plain = chainDecrypt md5 secret cipher.length
        (requestAuthenticator.val ++ salt) cipher →
      frRadiusDecodeTunnelPassword md5 secret requestAuthenticator zeros (salt ++ (cipher ++ b))
          (2 + cipher.length) =
        if cipher.length < (byte plain 0).toNat then none
        else if zeros && (slice (plain.drop 1 ++ t) (byte plain 0).toNat
            (cipher.length - 1 - (byte plain 0).toNat)).any (· ≠ 0) then none
        else some ((plain.drop 1 ++ t).set (byte plain 0).toNat 0, (byte plain 0).toNat) := by
  obtain ⟨t, ht⟩ := decryptTunnelLoop_first md5 secret hsalt (Nat.lt_trans Nat.zero_lt_one hcipher)
    (requestAuthenticator.val ++ salt) b
  refine ⟨t, ?_⟩
  rintro plain rfl
  have htake : (salt ++ (cipher ++ b)).take 2 = salt := take_left' hsalt
  have hfirst : byte (salt ++ (cipher ++ b)) 2 ^^^
      byte (md5 (secret ++ (requestAuthenticator.val ++ salt))).val 0 =
        byte (chainDecrypt md5 secret cipher.length (requestAuthenticator.val ++ salt) cipher) 0 := by
    obtain ⟨rounds, hrounds⟩ : ∃ rounds, cipher.length = rounds + 1 :=
      ⟨_, (Nat.sub_add_cancel (Nat.lt_trans Nat.zero_lt_one hcipher)).symm⟩
    rw [hrounds, chainDecrypt_succ]
    obtain ⟨digest, hdigest⟩ := md5 (secret ++ (requestAuthenticator.val ++ salt))
    obtain ⟨s, s', rfl⟩ := List.length_eq_two.mp hsalt
    cases cipher with
    | nil => simp at hcipher
    | cons c cipher =>
      cases digest with
      | nil => simp [radiusAuthVectorLength] at hdigest
      | cons d digest => rfl
  unfold frRadiusDecodeTunnelPassword
  rw [if_neg (by omega), if_neg (by omega)]
  simp only [htake, hfirst, Nat.add_sub_cancel_left, ht]

/-- The length and the password that a payload of a salt and encrypted bytes has. -/
def tunnelPlain (payload : List UInt8) : List UInt8 :=
  chainDecrypt md5 secret (payload.length - 2) (requestAuthenticator.val ++ payload.take 2)
    (payload.drop 2)

/-- What is answered is decrypted, unless the length counts its own byte too. -/
theorem decodeTunnelPassword_decrypts_iff {payload : List UInt8} (h : 4 ≤ payload.length)
    (zeros : Bool) (b : List UInt8) :
    (∀ passwd n, frRadiusDecodeTunnelPassword md5 secret requestAuthenticator zeros (payload ++ b)
        payload.length = some (passwd, n) → n ≤ payload.length - 3 ∧
      passwd.take n = ((tunnelPlain md5 secret requestAuthenticator payload).drop 1).take n) ↔
    (byte (tunnelPlain md5 secret requestAuthenticator payload) 0).toNat ≠ payload.length - 2 := by
  obtain ⟨plain, hplain⟩ : ∃ plain, tunnelPlain md5 secret requestAuthenticator payload = plain :=
    ⟨_, rfl⟩
  have hsalt : (payload.take 2).length = 2 := length_take_of_le (by omega)
  have hcipher : (payload.drop 2).length = payload.length - 2 := length_drop
  have hlong : 1 < (payload.drop 2).length := by omega
  have hlen : plain.length = payload.length - 2 := by
    rw [← hplain, ← hcipher]
    exact length_feedbackDecrypt (length_chainKey md5 secret) (by rw [authPassLen]; omega) _
  obtain ⟨t, ht⟩ :=
    frRadiusDecodeTunnelPassword_eq md5 secret requestAuthenticator hsalt hlong zeros b
  rw [← append_assoc, take_append_drop, hcipher, Nat.add_sub_cancel' (by omega)] at ht
  rw [hplain, ht plain hplain.symm]
  constructor
  · intro hall hn
    have hnone : payload.length - 2 - 1 - (payload.length - 2) = 0 := by omega
    have hle := (hall _ _ (by rw [hn, if_neg (Nat.lt_irrefl _), hnone, slice, take_zero,
      any_nil, Bool.and_false]; rfl)).1
    omega
  intro hne passwd m hsome
  split_ifs at hsome
  cases hsome
  refine ⟨by omega, ?_⟩
  rw [take_set_of_le le_rfl, take_append_of_le_length]
  rw [length_drop]
  omega

/-- A password of twenty bytes in two blocks. The key of a block repeats the last byte that is
hashed. -/
theorem decodeTunnelPassword_decrypts_two :
    let md5 : List UInt8 → Digest := fun l => ⟨replicate 16 (l.getLastD 0), length_replicate⟩
    let payload : List UInt8 := 9 :: 7 :: 19 :: replicate 31 0
    ∃ passwd, frRadiusDecodeTunnelPassword md5 [] Digest.zero true payload 34 = some (passwd, 20) ∧
      passwd.take 20 = replicate 15 7 ++ replicate 5 0 ∧
      passwd.take 20 = ((tunnelPlain md5 [] Digest.zero payload).drop 1).take 20 := by
  intro md5 payload
  have hdecode : frRadiusDecodeTunnelPassword md5 [] Digest.zero true payload 34 =
      some (replicate 15 7 ++ replicate 19 0, 20) := by
    decide +kernel
  exact ⟨_, hdecode, rfl, ((@decodeTunnelPassword_decrypts_iff md5 [] Digest.zero payload
    (by decide) true []).mpr (by decide) _ 20 hdecode).2⟩

/-- One byte is encrypted, and two are answered: the other one is of the salt. -/
theorem decodeTunnelPassword_salt :
    frRadiusDecodeTunnelPassword (fun _ => Digest.zero) [] Digest.zero true [9, 7, 2, 65] 4 =
      some ([65, 7, 0, 65], 2) ∧ ¬2 ≤ [9, 7, 2, 65].length - 3 :=
  ⟨rfl, by decide⟩

end TunnelPassword

end FreeRadius.Radius
